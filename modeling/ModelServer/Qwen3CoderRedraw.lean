import ModelServer.Qwen3Route
import ModelServer.RouteReset

/-! The Qwen3-Coder tool parser reads its random ids only to keep them apart. -/

namespace ModelServer.Qwen3CoderToolParser

namespace Impl

/-- Two parsers that differ in the number of ids they have drawn at most. -/
def SameButDraws (p q : Impl) : Prop := ∃ n, q = { p with drawnIds := n }

variable (rj : RapidJson) (ids ids' : RandomIds) (types : ToolsParameterTypeMap) {p q : Impl}

theorem parseChunk_sameButIds (h : SameButDraws p q) (chunk : Str) :
    SameButDraws (p.parseChunk rj ids types chunk).2 (q.parseChunk rj ids' types chunk).2 ∧
      ((q.parseChunk rj ids' types chunk).1.getD []).map ToolCall.invocation =
        ((p.parseChunk rj ids types chunk).1.getD []).map ToolCall.invocation := by
  obtain ⟨n, rfl⟩ := h
  unfold parseChunk
  split
  · exact ⟨⟨n, rfl⟩, rfl⟩
  · have hsame := parseAll_sameButIds rj ids types ids' (p.append chunk) n
    simp only [orNullopt_getD]
    exact hsame

theorem finalizeOnGenerationEnd_sameButDraws (h : SameButDraws p q) :
    SameButDraws (p.finalizeOnGenerationEnd rj ids types).2 (q.finalizeOnGenerationEnd rj ids' types).2 ∧
      ((q.finalizeOnGenerationEnd rj ids' types).1.getD []).map ToolCall.invocation =
        ((p.finalizeOnGenerationEnd rj ids types).1.getD []).map ToolCall.invocation := by
  obtain ⟨n, rfl⟩ := h
  unfold finalizeOnGenerationEnd
  split
  · exact ⟨⟨n, rfl⟩, rfl⟩
  · obtain ⟨⟨m, hm⟩, hcalls⟩ := parseAll_sameButIds rj ids types ids' (p.append TOOL_END_TAG) n
    simp only [orNullopt_getD]
    refine ⟨⟨m, ?_⟩, hcalls⟩
    exact congrArg resetParsingState hm

end Impl

namespace Parser

/-- The same environment with another generator. -/
abbrev redrawing (env : Environment) (ids : RandomIds) : Environment := { env with randomIds := ids }

/-- Two parsers that differ in their random ids at most. -/
structure SameButIds (p q : Parser) : Prop where
  streamParser : Impl.SameButDraws p.streamParser q.streamParser
  toolCallIndex : q.toolCallIndex = p.toolCallIndex
  pendingDeltas : q.pendingDeltas.map Delta.anonymous = p.pendingDeltas.map Delta.anonymous

theorem SameButIds.refl (p : Parser) : SameButIds p p := ⟨⟨_, rfl⟩, rfl, rfl⟩

variable (env : Environment) (ids : RandomIds) {p q : Parser}

theorem fullDeltas_anonymous (index : Int) {call call' : ToolCall} (h : call'.invocation = call.invocation) :
    (fullDeltas index call').map Delta.anonymous = (fullDeltas index call).map Delta.anonymous := by
  obtain ⟨hname, harguments⟩ := Prod.mk.inj h
  simp [fullDeltas, Delta.anonymous, hname, harguments]

theorem queueFullDelta_sameButIds (h : SameButIds p q) {call call' : ToolCall}
    (hcall : call'.invocation = call.invocation) :
    SameButIds (p.queueFullDelta env call) (q.queueFullDelta (redrawing env ids) call') := by
  obtain ⟨hname, harguments⟩ := Prod.mk.inj hcall
  obtain ⟨n, hstream⟩ := h.streamParser
  have hvalid : hasValidArguments (redrawing env ids) call' = hasValidArguments env call := by
    rw [hasValidArguments, hasValidArguments, hname, harguments]
  have hregistered : isRegisteredToolName (redrawing env ids) call'.name =
      isRegisteredToolName env call.name := by
    rw [hname]
    rfl
  unfold queueFullDelta
  rw [hvalid, hregistered]
  split
  · exact h
  split
  · exact h
  · refine ⟨?_, ?_, ?_⟩
    · rw [hstream]
      exact ⟨_, rfl⟩
    · rw [h.toolCallIndex]
    · rw [h.toolCallIndex, List.map_append, List.map_append, h.pendingDeltas]
      congr 1
      exact fullDeltas_anonymous _ hcall

theorem queueFullDeltas_sameButIds {calls calls' : List ToolCall} (h : SameButIds p q)
    (hcalls : calls'.map ToolCall.invocation = calls.map ToolCall.invocation) :
    SameButIds (p.queueFullDeltas env calls) (q.queueFullDeltas (redrawing env ids) calls') := by
  induction calls generalizing p q calls' with
  | nil =>
    rw [List.map_nil, List.map_eq_nil_iff] at hcalls
    rw [hcalls]
    exact h
  | cons call calls ih =>
    cases calls' with
    | nil => cases hcalls
    | cons call' calls' =>
      obtain ⟨hcall, hcalls⟩ := List.cons.inj hcalls
      show SameButIds (queueFullDeltas env (p.queueFullDelta env call) calls)
        (queueFullDeltas (redrawing env ids) (q.queueFullDelta (redrawing env ids) call') calls')
      exact ih (queueFullDelta_sameButIds env ids h hcall) hcalls

theorem SameButIds.withStream (h : SameButIds p q) {a b : Impl} (hab : Impl.SameButDraws a b) :
    SameButIds { p with streamParser := a } { q with streamParser := b } :=
  ⟨hab, h.toolCallIndex, h.pendingDeltas⟩

theorem receive_sameButIds (h : SameButIds p q) (chunk : Str) :
    SameButIds (p.receive env chunk) (q.receive (redrawing env ids) chunk) := by
  obtain ⟨hstream, hcalls⟩ := Impl.parseChunk_sameButIds env.rapidJson env.randomIds ids
    (createToolsParametersTypesMap env.toolSchemas) h.streamParser chunk
  exact queueFullDeltas_sameButIds env ids (h.withStream hstream) hcalls

theorem recover_sameButIds (h : SameButIds p q) :
    SameButIds (p.recover env) (q.recover (redrawing env ids)) := by
  obtain ⟨hstream, hcalls⟩ := Impl.finalizeOnGenerationEnd_sameButDraws env.rapidJson
    env.randomIds ids (createToolsParametersTypesMap env.toolSchemas) h.streamParser
  exact queueFullDeltas_sameButIds env ids (h.withStream hstream) hcalls

theorem takeQueuedDelta_sameButIds (h : SameButIds p q) :
    Alike SameButIds p.takeQueuedDelta q.takeQueuedDelta := by
  have hhead := congrArg List.head? h.pendingDeltas
  have htail := congrArg List.tail h.pendingDeltas
  rw [List.head?_map, List.head?_map] at hhead
  rw [← List.map_tail, ← List.map_tail] at htail
  exact ⟨hhead.symm, h.streamParser, h.toolCallIndex, htail⟩

theorem parseChunk_sameButIds (h : SameButIds p q) (chunk : Str) (finishReason : FinishReason) :
    Alike SameButIds (p.parseChunk env chunk finishReason)
      (q.parseChunk (redrawing env ids) chunk finishReason) := by
  have hreceive : SameButIds (if chunk.isEmpty then p else p.receive env chunk)
      (if chunk.isEmpty then q else q.receive (redrawing env ids) chunk) := by
    split
    · exact h
    · exact receive_sameButIds env ids h chunk
  apply takeQueuedDelta_sameButIds
  unfold consume
  dsimp only
  split
  · exact recover_sameButIds env ids hreceive
  · exact hreceive

end Parser

/-- Whatever generator it draws from, the parser answers alike. -/
theorem interchangeable (env : Environment) (ids : RandomIds) :
    (ModelServer.Qwen3CoderToolParser env).Interchangeable
      (ModelServer.Qwen3CoderToolParser (Parser.redrawing env ids)) Parser.SameButIds where
  parsingConfig := rfl
  parseChunk h chunk finishReason := Parser.parseChunk_sameButIds env ids h chunk finishReason
  drainPendingDelta h := Parser.takeQueuedDelta_sameButIds h

end ModelServer.Qwen3CoderToolParser
