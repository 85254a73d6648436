import ModelServer.ResponsesOutputIndex

namespace ModelServer.OpenAIResponsesHandler

structure ParsedOutput where
  content : Str := []
  toolCalls : List ToolCall := []
  reasoning : Str := []
deriving DecidableEq

/-- Empty calls are put in up to an index. -/
def resizeToolCalls (toolCalls : List ToolCall) (size : Nat) : List ToolCall :=
  toolCalls ++ List.replicate (size - toolCalls.length) ToolCall.empty

/-- A delta of a call: what it has is put in, and its arguments are appended. -/
def ToolCall.add (toolCall : ToolCall) (d : ToolCallDelta) : ToolCall where
  id := d.id.getD toolCall.id
  name := d.name.getD toolCall.name
  arguments := toolCall.arguments ++ d.arguments

/-- The index of a tool call is not negative. -/
def ParsedOutput.add (parsedOutput : ParsedOutput) : Delta → ParsedOutput
  | .content text => { parsedOutput with content := parsedOutput.content ++ text }
  | .reasoning text => { parsedOutput with reasoning := parsedOutput.reasoning ++ text }
  | .toolCall d => { parsedOutput with
      toolCalls := (resizeToolCalls parsedOutput.toolCalls (d.index.toNat + 1)).modify d.index.toNat (ToolCall.add · d) }
  | .finish => parsedOutput
  | .audio _ => parsedOutput

def parsedOutputFromDeltas (deltas : List Delta) : ParsedOutput := deltas.foldl ParsedOutput.add {}

/-- The `output` array of `serializeUnaryResponseImpl` for one parsed output. -/
def unaryOutput (parsedOutput : ParsedOutput) (responseStatus : Status) : List OutputItem :=
  (if parsedOutput.reasoning.isEmpty then []
    else [⟨.reasoning, REASONING_ITEM_ID, none, [], cStr parsedOutput.reasoning⟩]) ++
  (parsedOutput.toolCalls.zipIdx.map fun (toolCall, i) =>
    ⟨.functionCall i, cStr toolCall.id, some responseStatus, cStr toolCall.name, cStr toolCall.arguments⟩) ++
  (if parsedOutput.content.isEmpty then []
    else [⟨.message, OUTPUT_ITEM_ID, some responseStatus, [], cStr parsedOutput.content⟩])

def serializeUnaryResponse (deltas : List Delta) (finishReason : FinishReason) : List OutputItem :=
  unaryOutput (parsedOutputFromDeltas deltas) (if finishReason = .length then .incomplete else .completed)

/-- The first delta of each call names it, and no later one does. -/
def NamedOnce (deltas : List Delta) : Prop :=
  ∀ before d after, toolCallDeltas deltas = before ++ d :: after → 0 ≤ d.index ∧
    if d.index ∈ before.map ToolCallDelta.index then d.id = none ∧ d.name = none else d.id.isSome ∧ d.name.isSome

namespace Stream

variable {x : Stream} {seen : List Int}

/-- What the state has kept of the deltas. -/
def parsed (x : Stream) : ParsedOutput where
  content := x.responsesState.outputText
  toolCalls := x.responsesState.toolCalls
  reasoning := x.responsesState.reasoningText

@[simp] theorem parsed_emplace (type : EventType) (item : Option Item) (payload : Payload) :
    (x.emplace type item payload).parsed = x.parsed := rfl

@[simp] theorem parsed_created : x.serializeStreamingCreatedEvent.parsed = x.parsed := by
  unfold serializeStreamingCreatedEvent
  split
  · rfl
  · rfl

@[simp] theorem parsed_inProgress : x.serializeStreamingInProgressEvent.parsed = x.parsed := by
  unfold serializeStreamingInProgressEvent
  split
  · rfl
  · rfl

@[simp] theorem parsed_closeReasoning : x.closeReasoning.parsed = x.parsed := by
  obtain ⟨completed, n, hclosed⟩ := closeReasoning_responsesState (x := x)
  simp [parsed, hclosed]

@[simp] theorem parsed_closeMessage (finishReason : FinishReason) : (x.closeMessage finishReason).parsed = x.parsed := by
  obtain ⟨opened, n, hclosed⟩ := closeMessage_responsesState (x := x) finishReason
  simp [parsed, hclosed]

@[simp] theorem parsed_closeToolCalls (finishReason : FinishReason) : (x.closeToolCalls finishReason).parsed = x.parsed := by
  have hloop : ∀ (calls : List (ToolCall × Nat)) (y : Stream), (calls.foldl (fun y (toolCall, index) =>
      y.closeToolCall finishReason x.baseIdx toolCall index) y).parsed = y.parsed := by
    intro calls
    induction calls with
    | nil => exact fun _ => rfl
    | cons call calls ih => exact fun y => ih _
  exact hloop _ x

/-- The calls that have been announced are in the list, and no other has arguments yet. -/
def Announced (toolCalls : List ToolCall) (seen : List Int) : Prop :=
  ∀ i : Nat, if (i : Int) ∈ seen then i < toolCalls.length else toolCalls.getD i ToolCall.empty = ToolCall.empty

theorem resizeToolCalls_getElem? {toolCalls : List ToolCall} {i : Nat} :
    (resizeToolCalls toolCalls (i + 1))[i]? = some (toolCalls.getD i ToolCall.empty) := by
  unfold resizeToolCalls
  rcases Nat.lt_or_ge i toolCalls.length with hlt | hge
  · rw [List.getElem?_append_left hlt, List.getElem?_eq_getElem hlt]
    simp [hlt]
  · rw [List.getElem?_append_right hge, List.getElem?_replicate, if_pos (by omega)]
    simp [hge]

theorem resizeToolCalls_of_lt {toolCalls : List ToolCall} {i : Nat} (h : i < toolCalls.length) :
    resizeToolCalls toolCalls (i + 1) = toolCalls := by
  have hnone : i + 1 - toolCalls.length = 0 := by omega
  rw [resizeToolCalls, hnone, List.replicate_zero, List.append_nil]

/-- The calls after a delta that is the first of its call and names it. -/
theorem toolCalls_first {d : ToolCallDelta} {name : Str} (hname : d.name = some name) :
    (x.appendToolCallDeltaEvents d).responsesState.toolCalls =
      setToolCall x.responsesState.toolCalls d.index.toNat ⟨d.id.getD [], name, d.arguments⟩ := by
  unfold appendToolCallDeltaEvents
  simp only [hname, emplace_responsesState, setToolCall_getElem?, closeReasoning_toolCalls]
  split
  next hempty => simp [List.isEmpty_iff.mp hempty]
  next => simp [setToolCall]

/-- The calls after a later delta of a call. -/
theorem toolCalls_later {d : ToolCallDelta} {toolCall : ToolCall} (hname : d.name = none)
    (hfound : x.responsesState.toolCalls[d.index.toNat]? = some toolCall) :
    (x.appendToolCallDeltaEvents d).responsesState.toolCalls =
      x.responsesState.toolCalls.set d.index.toNat { toolCall with arguments := toolCall.arguments ++ d.arguments } := by
  unfold appendToolCallDeltaEvents
  simp only [hname, closeReasoning_toolCalls, hfound]
  split
  next hempty =>
    obtain ⟨hlt, hget⟩ := List.getElem?_eq_some_iff.mp hfound
    rw [List.isEmpty_iff.mp hempty, List.append_nil, closeReasoning_toolCalls, ← hget, List.set_getElem_self]
  next => simp

theorem modify_of_getElem? {α : Type} {xs : List α} {i : Nat} {a : α} (f : α → α) (h : xs[i]? = some a) :
    xs.modify i f = xs.set i (f a) := by
  have : Inhabited α := ⟨a⟩
  rw [List.modify_eq_set, h]
  rfl

theorem resizeToolCalls_getD {toolCalls : List ToolCall} {size j : Nat} :
    (resizeToolCalls toolCalls size).getD j ToolCall.empty = toolCalls.getD j ToolCall.empty := by
  unfold resizeToolCalls
  rcases Nat.lt_or_ge j toolCalls.length with hlt | hge
  · simp [List.getElem?_append_left hlt]
  · simp only [List.getD_eq_getElem?_getD, List.getElem?_append_right hge, List.getElem?_replicate,
      List.getElem?_eq_none hge]
    split
    · rfl
    · rfl

/-- Both paths make the same calls of a delta. -/
theorem Announced.step (h : Announced x.responsesState.toolCalls seen) {d : ToolCallDelta} (hpos : 0 ≤ d.index)
    (hnamed : if d.index ∈ seen then d.id = none ∧ d.name = none else d.id.isSome ∧ d.name.isSome) :
    (x.appendToolCallDeltaEvents d).responsesState.toolCalls =
      (resizeToolCalls x.responsesState.toolCalls (d.index.toNat + 1)).modify d.index.toNat (ToolCall.add · d) ∧
    Announced (x.appendToolCallDeltaEvents d).responsesState.toolCalls (seen ++ [d.index]) := by
  have hindex : (d.index.toNat : Int) = d.index := Int.toNat_of_nonneg hpos
  have hown := h d.index.toNat
  rw [hindex] at hown
  have hequal : (x.appendToolCallDeltaEvents d).responsesState.toolCalls =
      (resizeToolCalls x.responsesState.toolCalls (d.index.toNat + 1)).modify d.index.toNat (ToolCall.add · d) := by
    rw [modify_of_getElem? _ resizeToolCalls_getElem?]
    by_cases hseen : d.index ∈ seen
    · rw [if_pos hseen] at hown hnamed
      obtain ⟨hid, hname⟩ := hnamed
      have hfound : x.responsesState.toolCalls[d.index.toNat]? = some (x.responsesState.toolCalls[d.index.toNat]) :=
        List.getElem?_eq_getElem hown
      rw [toolCalls_later hname hfound, resizeToolCalls_of_lt hown]
      simp [ToolCall.add, hid, hname, hown]
    · rw [if_neg hseen] at hown hnamed
      obtain ⟨hid, hname⟩ := hnamed
      obtain ⟨name, hname⟩ := Option.isSome_iff_exists.mp hname
      rw [toolCalls_first hname, hown]
      simp [ToolCall.add, ToolCall.empty, setToolCall, resizeToolCalls, hname]
  refine ⟨hequal, fun j => ?_⟩
  rw [hequal]
  by_cases hj : j = d.index.toNat
  · have hmem : (j : Int) ∈ seen ++ [d.index] := by
      rw [hj, hindex]
      exact List.mem_append_right _ List.mem_cons_self
    rw [if_pos hmem, List.length_modify, resizeToolCalls, List.length_append, List.length_replicate]
    omega
  · have hne : (j : Int) ≠ d.index := by omega
    have hmem : (j : Int) ∈ seen ++ [d.index] ↔ (j : Int) ∈ seen := by simp [hne]
    have hother := h j
    simp only [hmem]
    split
    next hseen =>
      rw [if_pos hseen] at hother
      rw [List.length_modify, resizeToolCalls, List.length_append]
      omega
    next hseen =>
      rw [if_neg hseen] at hother
      rw [List.getD_eq_getElem?_getD, List.getElem?_modify_ne _ _ (Ne.symm hj), ← List.getD_eq_getElem?_getD,
        resizeToolCalls_getD, hother]

theorem parsed_appendReasoningDeltaEvents (text : Str) :
    (x.appendReasoningDeltaEvents text).parsed = x.parsed.add (.reasoning text) := by
  unfold appendReasoningDeltaEvents
  split
  · rfl
  · rfl

theorem parsed_openMessage (msgIdx : Nat) : (x.openMessage msgIdx).parsed = x.parsed := by
  unfold openMessage
  split
  · rfl
  · rfl

theorem parsed_appendContentDeltaEvents (text : Str) :
    (x.appendContentDeltaEvents text).parsed = x.parsed.add (.content text) := by
  unfold appendContentDeltaEvents
  split
  next hempty =>
    rw [List.isEmpty_iff.mp hempty]
    simp [ParsedOutput.add]
  next =>
    have hopened : (x.closeReasoning.openMessage x.closeReasoning.baseIdx).parsed = x.parsed := by
      rw [parsed_openMessage, parsed_closeReasoning]
    exact congrArg (fun parsedOutput : ParsedOutput => parsedOutput.add (.content text)) hopened

/-- A delta of a call leaves the texts alone. -/
theorem texts_appendToolCallDeltaEvents (d : ToolCallDelta) :
    (x.appendToolCallDeltaEvents d).parsed.content = x.parsed.content ∧
      (x.appendToolCallDeltaEvents d).parsed.reasoning = x.parsed.reasoning := by
  obtain ⟨completed, n, hclosed⟩ := closeReasoning_responsesState (x := x)
  unfold appendToolCallDeltaEvents parsed
  cases d.name with
  | none =>
    simp only
    split
    next => simp [hclosed]
    next =>
      split
      next => simp [hclosed]
      next => simp [hclosed]
  | some name =>
    simp only
    split
    next => simp [hclosed]
    next =>
      split
      next => simp [hclosed]
      next => simp [hclosed]

/-- Both paths keep the same of a delta. -/
theorem parsed_step (h : Announced x.parsed.toolCalls seen) (delta : Delta)
    (hnamed : ∀ d, delta = .toolCall d → 0 ≤ d.index ∧
      if d.index ∈ seen then d.id = none ∧ d.name = none else d.id.isSome ∧ d.name.isSome) :
    (x.appendDeltaEvents delta).parsed = x.parsed.add delta ∧
      Announced (x.parsed.add delta).toolCalls (seen ++ (toolCallDeltas [delta]).map ToolCallDelta.index) := by
  cases delta with
  | audio base64 => exact ⟨rfl, by simpa [toolCallDeltas, ParsedOutput.add] using h⟩
  | finish => exact ⟨rfl, by simpa [toolCallDeltas, ParsedOutput.add] using h⟩
  | reasoning text => exact ⟨parsed_appendReasoningDeltaEvents text, by simpa [toolCallDeltas, ParsedOutput.add] using h⟩
  | content text => exact ⟨parsed_appendContentDeltaEvents text, by simpa [toolCallDeltas, ParsedOutput.add] using h⟩
  | toolCall d =>
    obtain ⟨hpos, hnamed⟩ := hnamed d rfl
    obtain ⟨hcalls, hannounced⟩ := Announced.step h hpos hnamed
    obtain ⟨hcontent, hreasoning⟩ := texts_appendToolCallDeltaEvents (x := x) d
    have hparsed : (x.appendToolCallDeltaEvents d).parsed = x.parsed.add (.toolCall d) := by
      unfold ParsedOutput.add
      rw [← hcontent, ← hreasoning]
      exact congrArg (fun toolCalls => ParsedOutput.mk _ toolCalls _) hcalls
    refine ⟨hparsed, ?_⟩
    rw [← hparsed]
    exact hannounced

/-- Both paths keep the same of all deltas. -/
theorem parsed_run {deltas : List Delta} {last : Delta} {finishReason : FinishReason} (hreason : finishReason ≠ .none)
    (h : Announced x.parsed.toolCalls seen)
    (hnamed : ∀ before d after, toolCallDeltas (deltas ++ [last]) = before ++ d :: after → 0 ≤ d.index ∧
      if d.index ∈ seen ++ before.map ToolCallDelta.index then d.id = none ∧ d.name = none
      else d.id.isSome ∧ d.name.isSome) :
    ∃ y : Stream, y.parsed = (deltas ++ [last]).foldl ParsedOutput.add x.parsed ∧
      (deltas.foldl (fun (x : Stream) delta => x.serializeStreamingChunk delta .none) x).serializeStreamingChunk
        last finishReason = y.finish finishReason := by
  induction deltas generalizing x seen with
  | nil =>
    refine ⟨x.serializeStreamingCreatedEvent.serializeStreamingInProgressEvent.appendDeltaEvents last, ?_, ?_⟩
    · have hopening : x.serializeStreamingCreatedEvent.serializeStreamingInProgressEvent.parsed = x.parsed := by
        rw [parsed_inProgress, parsed_created]
      rw [← hopening] at h ⊢
      refine (parsed_step h last fun d hd => ?_).1
      rw [hd] at hnamed
      simpa using hnamed [] d [] (by simp [toolCallDeltas])
    · simp [serializeStreamingChunk, hreason]
  | cons delta deltas ih =>
    have hopening : x.serializeStreamingCreatedEvent.serializeStreamingInProgressEvent.parsed = x.parsed := by
      rw [parsed_inProgress, parsed_created]
    rw [← hopening] at h
    obtain ⟨hparsed, hannounced⟩ := parsed_step h delta fun d hd => by
      rw [hd] at hnamed
      simpa using hnamed [] d _ (by rw [List.cons_append, ← List.singleton_append, toolCallDeltas_append]; rfl)
    rw [← hparsed] at hannounced
    obtain ⟨y, hy, hrun⟩ := ih hannounced (by
      intro before d after heq
      rw [List.append_assoc, ← List.map_append]
      apply hnamed _ d after
      rw [List.cons_append, ← List.singleton_append, toolCallDeltas_append, heq, List.append_assoc])
    refine ⟨y, ?_, hrun⟩
    rw [hy, hparsed, hopening]
    rfl

/-- The last event holds the output items that the unary path makes of what was kept. -/
theorem output_finish (finishReason : FinishReason) : ∃ events number,
    (x.finish finishReason).events = events ++
      [⟨if finishReason = .length then .incomplete else .completed, number, none,
        .response (itemStatus finishReason) (unaryOutput x.parsed (itemStatus finishReason))⟩] := by
  have hkept : (((x.closeReasoning).closeToolCalls finishReason).closeMessage finishReason).parsed = x.parsed := by
    rw [parsed_closeMessage, parsed_closeToolCalls, parsed_closeReasoning]
  rw [← hkept]
  exact ⟨_, _, rfl⟩

end Stream

/-- The final event of a generation holds the output items of the unary response. -/
theorem streaming_agrees_with_unary {deltas : List Delta} {last : Delta} {finishReason : FinishReason}
    (hfinish : finishReason = .stop ∨ finishReason = .length) (hnamed : NamedOnce (deltas ++ [last])) :
    ∃ events number, (streamed deltas last finishReason).events = events ++
      [⟨if finishReason = .length then .incomplete else .completed, number, none,
        .response (Stream.itemStatus finishReason) (serializeUnaryResponse (deltas ++ [last]) finishReason)⟩] := by
  have hreason : finishReason ≠ .none := by
    rcases hfinish with rfl | rfl
    · decide
    · decide
  have hstart : Stream.Announced (Stream.parsed {}).toolCalls [] := by
    intro i
    rw [if_neg List.not_mem_nil]
    rfl
  obtain ⟨y, hparsed, hrun⟩ := Stream.parsed_run hreason hstart hnamed
  obtain ⟨events, number, hevents⟩ := Stream.output_finish (x := y) finishReason
  refine ⟨events, number, ?_⟩
  unfold streamed
  rw [hrun, hevents, hparsed]
  rfl

/-- Reasoning, a call whose arguments come in two parts, and content in between. -/
theorem streaming_agrees_with_unary_call :
    ∃ events number, (streamed [.reasoning (bytes "a"), .toolCall ⟨1, some (bytes "id"), some (bytes "f"), bytes "1"⟩,
        .content (bytes "b")] (.toolCall ⟨1, none, none, bytes "2"⟩) .length).events = events ++
      [⟨.incomplete, number, none, .response .incomplete
        [⟨.reasoning, bytes "rs-0", none, [], bytes "a"⟩, ⟨.functionCall 0, [], some .incomplete, [], []⟩,
          ⟨.functionCall 1, bytes "id", some .incomplete, bytes "f", bytes "12"⟩,
          ⟨.message, bytes "msg-0", some .incomplete, [], bytes "b"⟩]⟩] := by
  have hnamed : NamedOnce ([.reasoning (bytes "a"), .toolCall ⟨1, some (bytes "id"), some (bytes "f"), bytes "1"⟩,
      .content (bytes "b")] ++ [.toolCall ⟨1, none, none, bytes "2"⟩]) := by
    intro before d after heq
    change [⟨1, some (bytes "id"), some (bytes "f"), bytes "1"⟩, ⟨1, none, none, bytes "2"⟩] = before ++ d :: after at heq
    cases before with
    | nil =>
      cases heq
      decide
    | cons first before =>
      cases before with
      | nil =>
        cases heq
        decide
      | cons second before => simp at heq
  obtain ⟨events, number, h⟩ := streaming_agrees_with_unary (.inr rfl) hnamed
  exact ⟨events, number, h⟩

end ModelServer.OpenAIResponsesHandler
