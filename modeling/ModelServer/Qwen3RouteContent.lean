import ModelServer.Qwen3Route

namespace ModelServer.Qwen3Route

open Qwen3ReasoningParser Qwen3CoderToolParser OutputParser

/-- What is given out as content: the text so far is content wherever a chunk ends
and no start tag is or may be under way. From a tool tag on nothing is. -/
structure Channel where
  opened : Bool := false
  text : Str := []
  content : Str := []

namespace Channel

def phase (ch : Channel) : ProcessingPhase := if ch.opened then .content else .unknown

def receive (ch : Channel) (chunk : Str) : Channel := { ch with text := ch.text ++ chunk }

def settle (ch : Channel) : Channel :=
  if HasToolTag ch.text ∨ held ch.phase ch.text then ch else ⟨true, ch.text, ch.text⟩

def step (ch : Channel) (chunk : Str) : Channel := (ch.receive chunk).settle

def after (chunks : List Str) : Channel := chunks.foldl step {}

end Channel

/-- The deltas of one flush. -/
def contentDeltas (text : Str) : List Delta := if text.isEmpty then [] else [.content text]

@[simp] theorem contentText_contentDeltas (text : Str) : contentText (contentDeltas text) = text := by
  cases text <;> simp [contentDeltas, contentText]

@[simp] theorem reasoningText_contentDeltas (text : Str) : reasoningText (contentDeltas text) = [] := by
  cases text <;> rfl

@[simp] theorem toolCallDeltas_contentDeltas (text : Str) :
    toolCallDeltas (contentDeltas text) = [] := by
  cases text <;> rfl

variable (env : Environment) (tool : Parser)

/-- The tool parser has nothing yet; the channel's content is out and the rest is in the buffer. -/
structure Listening (ch : Channel) (s : RouteState) : Prop where
  split : ch.content ++ s.buffer = ch.text
  phase : s.processingPhase = ch.phase
  unopened : ch.opened = false → ch.content = []
  noTag : ¬ HasToolTag ch.content
  clear : ∀ tag ∈ [TOOL_START_TAG, FUNCTION_NAME_TAG], stringsOverlap ch.content tag = false
  toolState : s.toolState = tool
  running : s.terminalContentFinish = .none
  visible : s.contentSpecialTokensVisible = true

/-- The tool parser has everything from the first tool tag's buffer on. -/
structure Delivering (s : RouteState) : Prop where
  phase : s.processingPhase = .toolCallsProcessingTool
  buffer : s.buffer = []
  drained : s.toolState.pendingDeltas = []

section Listening

variable {tool} {ch : Channel} {s : RouteState}

theorem mem_toolTags {tag : Str} (hm : tag ∈ [TOOL_START_TAG, FUNCTION_NAME_TAG]) {text : Str}
    (h : tag <:+: text) : HasToolTag text := by
  simp only [List.mem_cons, List.not_mem_nil, or_false] at hm
  rcases hm with rfl | rfl
  · exact Or.inl h
  · exact Or.inr h

/-- A tool tag in all the text since the last flush is one in the text. -/
theorem hasToolTag_of_clear {front back : Str} (hn : ¬ HasToolTag front)
    (hclear : ∀ tag ∈ [TOOL_START_TAG, FUNCTION_NAME_TAG], stringsOverlap front tag = false) :
    HasToolTag (front ++ back) ↔ HasToolTag back := by
  have hone : ∀ tag ∈ [TOOL_START_TAG, FUNCTION_NAME_TAG], (tag <:+: front ++ back ↔ tag <:+: back) := by
    intro tag hm
    have hne : tag ≠ [] := by
      revert tag
      decide
    exact infix_append_of_clear hne (fun hin => hn (mem_toolTags hm hin)) (hclear tag hm)
  exact or_congr (hone _ (by simp)) (hone _ (by simp))

theorem Listening.hasToolTag (h : Listening tool ch s) : HasToolTag ch.text ↔ HasToolTag s.buffer := by
  rw [← h.split, hasToolTag_of_clear h.noTag h.clear]

theorem Listening.receive (h : Listening tool ch s) (chunk : Str) :
    Listening tool (ch.receive chunk) (s.receive chunk true .none) where
  split := by
    have hs := congrArg (· ++ chunk) h.split
    simpa [Channel.receive, State.receive] using hs
  phase := h.phase
  unopened := h.unopened
  noTag := h.noTag
  clear := h.clear
  toolState := h.toolState
  running := h.running
  visible := h.visible

theorem Listening.held_buffer (h : Listening tool ch s) :
    held s.processingPhase s.buffer = held ch.phase ch.text := by
  rw [h.phase, ← h.split]
  unfold held
  rw [stringsOverlap_append (by decide) (h.clear _ (by simp)),
    stringsOverlap_append (by decide) (h.clear _ (by simp))]
  cases ho : ch.opened with
  | true => simp [Channel.phase, ho]
  | false => simp [h.unopened ho]

/-- `<think>` matters only until the channel is open. -/
def Thoughtless (ch : Channel) : Prop := ch.opened = true ∨ ¬ startTag <:+: ch.text

theorem Listening.heard (h : Listening tool ch s) (hthink : Thoughtless ch) :
    s.processingPhase = .content ∨ s.processingPhase = .unknown ∧ ¬ startTag <:+: s.buffer := by
  rw [h.phase, Channel.phase]
  cases ho : ch.opened with
  | true => exact Or.inl rfl
  | false =>
    refine Or.inr ⟨rfl, ?_⟩
    have hbuffer : s.buffer = ch.text := by simpa [h.unopened ho] using h.split
    rw [hbuffer]
    simpa [Thoughtless, ho] using hthink

/-- Without a tool tag, what is in the buffer is held or becomes content. -/
theorem Listening.settles (h : Listening tool ch s) (ho : Open s) (hthink : Thoughtless ch)
    (htag : ¬ HasToolTag ch.text) :
    ∃ ds t, Settles env s ds t ∧ Listening tool ch.settle t ∧
      ch.content ++ contentText ds = ch.settle.content ∧
      reasoningText ds = [] ∧ toolCallDeltas ds = [] := by
  have hheard := h.heard hthink
  have hheld := h.held_buffer
  have hnone : ¬ HasToolTag s.buffer := fun hin => htag (h.hasToolTag.mpr hin)
  cases hh : held ch.phase ch.text with
  | true =>
    have hstep : ch.settle = ch := by simp [Channel.settle, hh]
    rw [hstep]
    refine ⟨[], s, settles_held env ho hheard hnone (hheld.trans hh) h.running, h, ?_, rfl, rfl⟩
    exact List.append_nil _
  | false =>
    have hstep : ch.settle = ⟨true, ch.text, ch.text⟩ := by simp [Channel.settle, hh, htag]
    have hout : (toContent s).1.toList = contentDeltas s.buffer := by
      unfold toContent contentDeltas
      split <;> rfl
    have hrun := settles_content env ho hheard hnone (hheld.trans hh) h.running
    rw [hout] at hrun
    rw [hstep]
    refine ⟨_, _, hrun, ?_, ?_, reasoningText_contentDeltas _, toolCallDeltas_contentDeltas _⟩
    · refine ⟨List.append_nil _, rfl, by simp, htag, ?_, h.toolState, h.running, h.visible⟩
      intro tag hm
      simp only [List.mem_cons, List.not_mem_nil, or_false] at hm
      simp only [held, Bool.or_eq_false_iff] at hh
      rcases hm with rfl | rfl
      · exact hh.1.1
      · exact hh.1.2
    · rw [contentText_contentDeltas]
      exact h.split

/-- With a tool tag, all that is held goes to the tool parser. -/
theorem Listening.settles_tool (h : Listening tool ch s) (ho : Open s) (hthink : Thoughtless ch)
    (htag : HasToolTag ch.text) :
    ∃ t, Settles env s (tool.consume env s.buffer .none).pendingDeltas t ∧ Delivering t ∧
      t.toolState = delivered env tool s.buffer .none := by
  have hrun := Qwen3Route.settles_tool env ho (h.heard hthink) (h.hasToolTag.mp htag)
  rw [h.toolState] at hrun
  exact ⟨_, hrun, ⟨rfl, rfl, rfl⟩, rfl⟩

end Listening

/-- In the tool phase every chunk goes to the tool parser. -/
theorem Delivering.call {s : RouteState} (h : Delivering s) (chunk : Str)
    (finishReason : FinishReason) :
    ∃ t, (qwen3Route env).Runs s [(chunk, finishReason)]
        (s.toolState.consume env chunk finishReason).pendingDeltas t ∧
      Delivering t ∧ t.toolState = delivered env s.toolState chunk finishReason := by
  have hphase : (s.receive chunk true finishReason).processingPhase = .toolCallsProcessingTool :=
    h.phase
  have hparse : (qwen3Route env).dispatch (s.receive chunk true finishReason) finishReason =
      toTool env (s.receive chunk true finishReason) finishReason := by
    have hcfg : (qwen3Route env).toolParser.parsingConfig.endTags = [] := rfl
    have hlook : ∀ buffer, lookupTags buffer [] = .notFound := fun _ => rfl
    simp [dispatch, hphase, parseProcessingTool, hcfg, hlook, parseToolCallChunk_eq]
  obtain ⟨ds, hdrain, hout, _⟩ := toTool_drained env (s := s.receive chunk true finishReason) rfl finishReason
  have hrun : (qwen3Route env).Runs s [(chunk, finishReason)]
      ((toTool env (s.receive chunk true finishReason) finishReason).1.toList ++ ds) _ :=
    Runs.single hparse hdrain
  have hbuffer : (s.receive chunk true finishReason).buffer = chunk := by
    simp [State.receive, h.buffer]
  rw [← hout, hbuffer, show (s.receive chunk true finishReason).toolState = s.toolState from rfl] at hrun
  exact ⟨_, hrun, ⟨rfl, rfl, rfl⟩, rfl⟩

theorem Delivering.runs {s : RouteState} (h : Delivering s) (chunks : List Str) :
    ∃ t, (qwen3Route env).Runs s (chunks.map fun chunk => (chunk, .none))
        (deliver env s.toolState chunks).1 t ∧
      Delivering t ∧ t.toolState = (deliver env s.toolState chunks).2 := by
  induction chunks generalizing s with
  | nil => exact ⟨s, .nil, h, rfl⟩
  | cons chunk chunks ih =>
    obtain ⟨u, hcall, hu, htool⟩ := h.call env chunk .none
    obtain ⟨t, hrest, ht, htool'⟩ := ih hu
    rw [htool] at hrest htool'
    exact ⟨t, hcall.append hrest, ht, htool'⟩

section Runs

variable {tool} {ch : Channel} {s : RouteState}

theorem Channel.step_of_tag {chunk : Str} (h : HasToolTag (ch.text ++ chunk)) : ch.step chunk = ch.receive chunk := by
  have ht : HasToolTag (ch.receive chunk).text := h
  simp [Channel.step, Channel.settle, ht]

theorem HasToolTag.append {text : Str} (h : HasToolTag text) (x : Str) : HasToolTag (text ++ x) :=
  h.imp (·.trans (List.prefix_append _ _).isInfix) (·.trans (List.prefix_append _ _).isInfix)

theorem Channel.foldl_of_tag (h : HasToolTag ch.text) (chunks : List Str) :
    chunks.foldl Channel.step ch = ch.receive chunks.flatten := by
  induction chunks generalizing ch with
  | nil => simp [Channel.receive]
  | cons chunk chunks ih =>
    rw [List.foldl_cons, Channel.step_of_tag (h.append chunk), ih (h.append chunk)]
    simp [Channel.receive]

@[simp] theorem Channel.step_text (chunk : Str) : (ch.step chunk).text = ch.text ++ chunk := by
  unfold Channel.step Channel.settle
  split <;> rfl

@[simp] theorem Channel.foldl_text (chunks : List Str) :
    (chunks.foldl Channel.step ch).text = ch.text ++ chunks.flatten := by
  induction chunks generalizing ch with
  | nil => simp
  | cons chunk chunks ih => simp [ih]

theorem Channel.step_opened (h : ch.opened = true) (chunk : Str) : (ch.step chunk).opened = true := by
  unfold Channel.step Channel.settle
  split
  · exact h
  · rfl

/-- How a run of chunks ends: still listening, or with the tool parser fed from the last flush on. -/
def Ended (env : Environment) (tool : Parser) (ch : Channel) (ds : List Delta) (t : RouteState) : Prop :=
  (¬ HasToolTag ch.text ∧ Listening tool ch t ∧ toolCallDeltas ds = []) ∨
    (HasToolTag ch.text ∧ Delivering t ∧ ¬ HasToolTag ch.content ∧
      (∀ tag ∈ [TOOL_START_TAG, FUNCTION_NAME_TAG], stringsOverlap ch.content tag = false) ∧
      ∃ pieces, ch.content ++ pieces.flatten = ch.text ∧
        toolCallDeltas ds = toolCallDeltas (deliver env tool pieces).1 ∧
        t.toolState = (deliver env tool pieces).2)

/-- The deltas of a run of chunks: as content, what the channel gives out. -/
theorem Listening.runs (htool : tool.pendingDeltas = []) (h : Listening tool ch s)
    (htag : ¬ HasToolTag ch.text) (chunks : List Str)
    (hthink : ch.opened = true ∨ ¬ startTag <:+: ch.text ++ chunks.flatten) :
    ∃ ds t, (qwen3Route env).Runs s (chunks.map fun chunk => (chunk, .none)) ds t ∧
      ch.content ++ contentText ds = (chunks.foldl Channel.step ch).content ∧
      reasoningText ds = [] ∧ Ended env tool (chunks.foldl Channel.step ch) ds t := by
  induction chunks generalizing ch s with
  | nil => exact ⟨[], s, .nil, List.append_nil _, rfl, Or.inl ⟨htag, h, rfl⟩⟩
  | cons chunk chunks ih =>
    have hr := h.receive chunk
    have ho : Open (s.receive chunk true .none) := receive_open h.visible chunk .none
    have hthink' : Thoughtless (ch.receive chunk) := by
      refine hthink.imp id fun hn hin => hn ?_
      have : ch.text ++ (chunk :: chunks).flatten = (ch.text ++ chunk) ++ chunks.flatten := by simp
      rw [this]
      exact hin.trans (List.prefix_append _ _).isInfix
    by_cases ht : HasToolTag (ch.receive chunk).text
    · obtain ⟨u, hcall, hu, hstate⟩ := hr.settles_tool env ho hthink' ht
      obtain ⟨t, hrest, ht', hstate'⟩ := hu.runs env chunks
      have hpieces := deliver_onlyCalls env (p := tool) (by simp [htool, OnlyCalls])
        ((s.receive chunk true .none).buffer :: chunks)
      rw [hstate] at hrest hstate'
      rw [List.foldl_cons, Channel.step_of_tag ht, Channel.foldl_of_tag ht]
      refine ⟨_, t, hcall.runs.append hrest, ?_, hpieces.texts.2, Or.inr ⟨?_, ht', h.noTag, h.clear,
        (s.receive chunk true .none).buffer :: chunks, ?_, rfl, hstate'⟩⟩
      · exact (congrArg (ch.content ++ ·) hpieces.texts.1).trans (List.append_nil _)
      · exact ht.append _
      · have hs := hr.split
        simp only [Channel.receive, List.flatten_cons] at hs ⊢
        rw [← List.append_assoc, hs]
    · obtain ⟨ds, u, hcall, hu, hcontent, hreason, hnocall⟩ := hr.settles env ho hthink' ht
      have hu' : Listening tool (ch.step chunk) u := hu
      obtain ⟨es, t, hrest, hcontent', hreason', hend⟩ := ih hu' (by rwa [Channel.step_text]) (by
        rcases hthink with hopen | hn
        · exact Or.inl (Channel.step_opened hopen chunk)
        · exact Or.inr (by simpa using hn))
      rw [List.foldl_cons]
      refine ⟨ds ++ es, t, hcall.runs.append hrest, ?_, by simp [hreason, hreason'], ?_⟩
      · rw [contentText_append, ← List.append_assoc, ← hcontent']
        exact congrArg (· ++ contentText es) hcontent
      · rcases hend with ⟨h1, h2, h3⟩ | ⟨h1, h2, h3, h4, pieces, h5, h6, h7⟩
        · exact Or.inl ⟨h1, h2, by simp [hnocall, h3]⟩
        · exact Or.inr ⟨h1, h2, h3, h4, pieces, h5, by simp [hnocall, h6], h7⟩

end Runs

end ModelServer.Qwen3Route
