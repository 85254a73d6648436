import ModelServer.Qwen3CoderCallText

namespace ModelServer.Qwen3CoderToolParser

open Occurrence Impl

/-- What a consumer can do with the parser. -/
inductive Op
  | parseChunk (chunk : Str) (finishReason : FinishReason)
  | drainPendingDelta
  | resetState

/-- A parser and the deltas it has returned since the last reset. -/
structure Session where
  parser : Parser
  returned : List Delta

/-- The text whose calls may still be completed: what came since the last stop or reset. -/
def unfinishedText (ops : List Op) : Str :=
  ops.foldl (fun text op =>
    match op with
    | .parseChunk chunk finishReason => if finishReason = .stop then [] else text ++ chunk
    | .drainPendingDelta => text
    | .resetState => []) []

/-- The deltas of calls in order, each with its position as index. -/
def publishedDeltas (calls : List ToolCall) : List Delta :=
  calls.zipIdx.flatMap fun (call, index) => Parser.fullDeltas index call

theorem publishedDeltas_append (calls : List ToolCall) (call : ToolCall) :
    publishedDeltas (calls ++ [call]) =
      publishedDeltas calls ++ Parser.fullDeltas calls.length call := by
  simp [publishedDeltas, List.zipIdx_append]

variable (env : Environment)

abbrev Environment.types : ToolsParameterTypeMap := createToolsParametersTypesMap env.toolSchemas

namespace Session

def step (s : Session) (op : Op) : Session :=
  match op with
  | .parseChunk chunk finishReason =>
    let (delta, parser) := s.parser.parseChunk env chunk finishReason
    ⟨parser, s.returned ++ delta.toList⟩
  | .drainPendingDelta =>
    let (delta, parser) := s.parser.drainPendingDelta
    ⟨parser, s.returned ++ delta.toList⟩
  | .resetState => ⟨s.parser.resetState, []⟩

/-- The operations in order on a new parser, `n` random ids having been drawn before. -/
def run (n : Nat) (ops : List Op) : Session :=
  ops.foldl (step env) ⟨{ streamParser := fresh n }, []⟩

end Session

/-- The call was complete in what one `parseChunk` had received: closed by its
`</tool_call>`, or at a natural stop by its `</function>` alone. -/
def Earned (ops : List Op) (call : ToolCall) : Prop :=
  ∃ before chunk finishReason after,
    ops = before ++ .parseChunk chunk finishReason :: after ∧ .resetState ∉ after ∧
      (ClosedIn env.rapidJson env.types (unfinishedText before ++ chunk) call ∨
        finishReason = .stop ∧
          OpenIn env.rapidJson env.types (unfinishedText before ++ chunk) call)

/-- A call of a registered tool with arguments its schema accepts. -/
def Validated (call : ToolCall) : Prop :=
  ∃ wrapper, env.toolSchemas.lookup call.name = some wrapper ∧
    env.validateQwenXmlToolArguments wrapper.stringRepr call.arguments = true

/-- The deltas returned and queued are those of `calls`, each of which is as it should be. -/
structure Published (good : ToolCall → Prop) (calls : List ToolCall) (s : Session) : Prop where
  deltas : s.returned ++ s.parser.pendingDeltas = publishedDeltas calls
  index : s.parser.toolCallIndex = calls.length - 1
  ids : s.parser.publishedCallIds = calls.map ToolCall.id
  distinct : (calls.map ToolCall.id).Nodup
  validated : ∀ call ∈ calls, Validated env call
  earned : ∀ call ∈ calls, good call

/-- The inner parser stands where the text received has taken it. -/
structure Standing (text : Str) (p : Impl) : Prop where
  text : p.streamContent = text
  placed : p.WellPlaced
  quiet : p.Quiet
  spells : p.Spells env.rapidJson env.types

theorem freshId_notMem (published : List Str) (id : Str) (drawn : Nat) :
    (Parser.freshId env published id drawn).1 ∉ published := by
  unfold Parser.freshId
  split
  next h => exact h
  next => exact (Nat.find_spec (env.randomIds.fresh published drawn)).2

theorem validated_of_hasValidArguments {call : ToolCall}
    (h : Parser.hasValidArguments env call = true) : Validated env call := by
  unfold Parser.hasValidArguments at h
  split at h
  next wrapper hw => exact ⟨wrapper, hw, h⟩
  next => cases h

/-- Queueing touches the inner parser's ids only. -/
theorem queueFullDelta_streamParser (p : Parser) (call : ToolCall) :
    ∃ n, (p.queueFullDelta env call).streamParser = { p.streamParser with drawnIds := n } := by
  unfold Parser.queueFullDelta
  split
  next => exact ⟨_, rfl⟩
  split
  next => exact ⟨_, rfl⟩
  next => exact ⟨_, rfl⟩

theorem Standing.redraw {text : Str} {p : Impl} (h : Standing env text p) (n : Nat) :
    Standing env text { p with drawnIds := n } :=
  ⟨h.text, h.placed, h.quiet, h.spells⟩

section Queue

variable {env} {good : ToolCall → Prop}
  (anyId : ∀ call id, good call → good { call with id := id })
include anyId

theorem queueFullDelta_published {calls : List ToolCall} {s : Session}
    (hs : Published env good calls s) {call : ToolCall} (hcall : good call) :
    ∃ calls', Published env good calls' ⟨s.parser.queueFullDelta env call, s.returned⟩ := by
  unfold Parser.queueFullDelta
  split
  next => exact ⟨calls, hs⟩
  split
  next => exact ⟨calls, hs⟩
  next hvalid =>
  have hnew := freshId_notMem env s.parser.publishedCallIds call.id s.parser.streamParser.drawnIds
  cases hid : Parser.freshId env s.parser.publishedCallIds call.id s.parser.streamParser.drawnIds with
  | mk id drawn =>
  rw [hid, hs.ids] at hnew
  have hindex : s.parser.toolCallIndex + 1 = calls.length := by
    have := hs.index
    omega
  refine ⟨calls ++ [{ call with id := id }], ?_, ?_, ?_, ?_, ?_, ?_⟩
  · rw [publishedDeltas_append, ← hs.deltas, List.append_assoc, hindex]
  · simp only [hindex, List.length_append, List.length_singleton]
    omega
  · simp only [hs.ids, List.map_append, List.map_cons, List.map_nil]
  · rw [List.map_append]
    refine List.nodup_append.mpr ⟨hs.distinct, by simp, ?_⟩
    intro a ha b hb hab
    rw [List.map_singleton, List.mem_singleton] at hb
    subst hab hb
    exact hnew ha
  · intro c hc
    rcases List.mem_append.mp hc with hold | hlast
    · exact hs.validated c hold
    · rw [List.mem_singleton] at hlast
      subst hlast
      have hv : Parser.hasValidArguments env call = true := by simpa using hvalid
      exact (validated_of_hasValidArguments env hv : Validated env call)
  · intro c hc
    rcases List.mem_append.mp hc with hold | hlast
    · exact hs.earned c hold
    · rw [List.mem_singleton] at hlast
      subst hlast
      exact anyId call id hcall

theorem queueFullDeltas_published {text : Str} {found : List ToolCall} {calls : List ToolCall}
    {s : Session} (hs : Published env good calls s) (hp : Standing env text s.parser.streamParser)
    (hfound : ∀ call ∈ found, good call) :
    ∃ calls', Published env good calls' ⟨s.parser.queueFullDeltas env found, s.returned⟩ ∧
      Standing env text (s.parser.queueFullDeltas env found).streamParser := by
  induction found generalizing calls s with
  | nil => exact ⟨calls, hs, hp⟩
  | cons call found ih =>
    obtain ⟨calls', hs'⟩ := queueFullDelta_published anyId hs (hfound call (by simp))
    obtain ⟨n, hn⟩ := queueFullDelta_streamParser env s.parser call
    have hp' : Standing env text (s.parser.queueFullDelta env call).streamParser := by
      rw [hn]
      exact hp.redraw env n
    exact ih hs' hp' (fun c hc => hfound c (by simp [hc]))

end Queue

/-- A chunk is received: the calls found are closed in the text so far. -/
theorem receive_published {good : ToolCall → Prop}
    (anyId : ∀ call id, good call → good { call with id := id }) {text chunk : Str}
    {calls : List ToolCall} {s : Session} (hs : Published env good calls s)
    (hp : Standing env text s.parser.streamParser)
    (hgood : ∀ call, ClosedIn env.rapidJson env.types (text ++ chunk) call → good call) :
    ∃ calls', Published env good calls' ⟨s.parser.receive env chunk, s.returned⟩ ∧
      Standing env (text ++ chunk) (s.parser.receive env chunk).streamParser := by
  have heq := parseChunk_eq env.rapidJson env.randomIds env.types hp.quiet chunk
  have hw := hp.placed.append chunk
  have hread : (s.parser.streamParser.append chunk).Spells env.rapidJson env.types := by
    have := hp.spells
    unfold Spells at this ⊢
    rwa [readText_append hp.placed]
  have hsound := parseAll_sound env.rapidJson env.randomIds env.types hread
  obtain ⟨hw', hq'⟩ := parseAll_settled env.rapidJson env.randomIds env.types hw heq.symm
  rw [← heq, show (s.parser.streamParser.append chunk).streamContent =
    s.parser.streamParser.streamContent ++ chunk from rfl, hp.text] at hsound
  exact queueFullDeltas_published anyId (s := ⟨{ s.parser with streamParser := _ }, s.returned⟩)
    ⟨hs.deltas, hs.index, hs.ids, hs.distinct, hs.validated, hs.earned⟩
    ⟨hsound.content, hw', hq', hsound.spells⟩ (fun call hcall => hgood call (hsound.closed call hcall))

theorem resetParsingState_standing (p : Impl) : Standing env [] p.resetParsingState :=
  ⟨rfl, Nat.le_refl _, fresh_quiet 0, rfl⟩

/-- A natural stop: the call recovered is open in the text so far. -/
theorem recover_published {good : ToolCall → Prop}
    (anyId : ∀ call id, good call → good { call with id := id }) {text : Str}
    {calls : List ToolCall} {s : Session} (hs : Published env good calls s)
    (hp : Standing env text s.parser.streamParser)
    (hgood : ∀ call, OpenIn env.rapidJson env.types text call → good call) :
    ∃ calls', Published env good calls' ⟨s.parser.recover env, s.returned⟩ ∧
      Standing env [] (s.parser.recover env).streamParser := by
  have hreset : ∃ q : Impl, (finalizeOnGenerationEnd env.rapidJson env.randomIds env.types
      s.parser.streamParser).2 = q.resetParsingState := by
    unfold finalizeOnGenerationEnd
    split
    · exact ⟨_, rfl⟩
    · exact ⟨_, rfl⟩
  obtain ⟨q, hq⟩ := hreset
  have hstand : Standing env [] (finalizeOnGenerationEnd env.rapidJson env.randomIds env.types
      s.parser.streamParser).2 := by
    rw [hq]
    exact resetParsingState_standing env q
  refine queueFullDeltas_published anyId (s := ⟨{ s.parser with streamParser := _ }, s.returned⟩)
    ⟨hs.deltas, hs.index, hs.ids, hs.distinct, hs.validated, hs.earned⟩ hstand ?_
  intro call hcall
  refine hgood call ?_
  rw [← hp.text]
  exact finalizeOnGenerationEnd_openIn env.rapidJson env.randomIds env.types hp.placed hp.quiet
    hp.spells hcall

@[simp] theorem takeQueuedDelta_streamParser (p : Parser) :
    p.takeQueuedDelta.2.streamParser = p.streamParser := rfl

theorem takeQueuedDelta_published {good : ToolCall → Prop} {calls : List ToolCall} {s : Session}
    (hs : Published env good calls s) :
    Published env good calls
      ⟨s.parser.takeQueuedDelta.2, s.returned ++ s.parser.takeQueuedDelta.1.toList⟩ := by
  refine ⟨?_, hs.index, hs.ids, hs.distinct, hs.validated, hs.earned⟩
  rw [← hs.deltas]
  unfold Parser.takeQueuedDelta
  cases s.parser.pendingDeltas <;> simp

theorem Published.weaken {good good' : ToolCall → Prop} {calls : List ToolCall} {s : Session}
    (hs : Published env good calls s) (h : ∀ call, good call → good' call) :
    Published env good' calls s :=
  ⟨hs.deltas, hs.index, hs.ids, hs.distinct, hs.validated, fun c hc => h c (hs.earned c hc)⟩

theorem Earned.later {ops : List Op} {op : Op} {call : ToolCall} (h : Earned env ops call)
    (hop : op ≠ .resetState) : Earned env (ops ++ [op]) call := by
  obtain ⟨before, chunk, finishReason, after, hops, hafter, hcall⟩ := h
  refine ⟨before, chunk, finishReason, after ++ [op], by simp [hops], ?_, hcall⟩
  simpa [hafter] using hop.symm

theorem Earned.anyId {ops : List Op} (call : ToolCall) (id : Str) (h : Earned env ops call) :
    Earned env ops { call with id := id } := by
  obtain ⟨before, chunk, finishReason, after, hops, hafter, hcall⟩ := h
  refine ⟨before, chunk, finishReason, after, hops, hafter, ?_⟩
  rcases hcall with ⟨pre, c, inside, gap, post, hc, hg, ht, hfrom⟩ |
    ⟨hstop, pre, c, inside, gap, hc, hg, ht, hfrom⟩
  · exact Or.inl ⟨pre, c, inside, gap, post, hc, hg, ht,
      hfrom.valid, hfrom.distinct, hfrom.complete, hfrom.name, hfrom.arguments⟩
  · exact Or.inr ⟨hstop, pre, c, inside, gap, hc, hg, ht,
      hfrom.valid, hfrom.distinct, hfrom.complete, hfrom.name, hfrom.arguments⟩

theorem unfinishedText_append (ops : List Op) (op : Op) :
    unfinishedText (ops ++ [op]) =
      match op with
      | .parseChunk chunk finishReason =>
        if finishReason = .stop then [] else unfinishedText ops ++ chunk
      | .drainPendingDelta => unfinishedText ops
      | .resetState => [] := by
  simp [unfinishedText]

/-- What one operation keeps. -/
theorem step_published {ops : List Op} {calls : List ToolCall} {s : Session}
    (hs : Published env (Earned env ops) calls s)
    (hp : Standing env (unfinishedText ops) s.parser.streamParser) (op : Op) :
    ∃ calls', Published env (Earned env (ops ++ [op])) calls' (s.step env op) ∧
      Standing env (unfinishedText (ops ++ [op])) (s.step env op).parser.streamParser := by
  rw [unfinishedText_append]
  cases op with
  | resetState =>
    refine ⟨[], ⟨rfl, rfl, rfl, List.nodup_nil, by simp, by simp⟩, ?_⟩
    exact ⟨rfl, Nat.le_refl _, fresh_quiet 0, rfl⟩
  | drainPendingDelta =>
    exact ⟨calls, takeQueuedDelta_published env (hs.weaken env fun c hc => hc.later env (by simp)), hp⟩
  | parseChunk chunk finishReason =>
    have hs' : Published env (Earned env (ops ++ [.parseChunk chunk finishReason])) calls s :=
      hs.weaken env fun c hc => hc.later env (by simp)
    obtain ⟨calls₁, hs₁, hp₁⟩ : ∃ calls',
        Published env (Earned env (ops ++ [.parseChunk chunk finishReason])) calls'
          ⟨if chunk.isEmpty then s.parser else s.parser.receive env chunk, s.returned⟩ ∧
        Standing env (unfinishedText ops ++ chunk)
          (if chunk.isEmpty then s.parser else s.parser.receive env chunk).streamParser := by
      by_cases hc : chunk = []
      · subst hc
        exact ⟨calls, hs', by simpa using hp⟩
      · rw [if_neg (by simpa using hc)]
        exact receive_published env (Earned.anyId env) hs' hp fun call hcall =>
          ⟨ops, chunk, finishReason, [], rfl, by simp, Or.inl hcall⟩
    by_cases hstop : finishReason = .stop
    · obtain ⟨calls₂, hs₂, hp₂⟩ := recover_published env (Earned.anyId env) hs₁ hp₁ fun call hcall =>
        ⟨ops, chunk, finishReason, [], rfl, by simp, Or.inr ⟨hstop, hcall⟩⟩
      refine ⟨calls₂, ?_, ?_⟩
      · simpa only [Session.step, Parser.parseChunk, Parser.consume, hstop, if_true] using
          takeQueuedDelta_published env hs₂
      · simpa only [Session.step, Parser.parseChunk, Parser.consume, hstop, if_true, takeQueuedDelta_streamParser] using hp₂
    · refine ⟨calls₁, ?_, ?_⟩
      · simpa only [Session.step, Parser.parseChunk, Parser.consume, hstop, if_false] using
          takeQueuedDelta_published env hs₁
      · simpa only [Session.step, Parser.parseChunk, Parser.consume, hstop, if_false,
          takeQueuedDelta_streamParser] using hp₁

theorem run_published (n : Nat) (ops : List Op) :
    ∃ calls, Published env (Earned env ops) calls (Session.run env n ops) ∧
      Standing env (unfinishedText ops) (Session.run env n ops).parser.streamParser := by
  induction ops using List.reverseRecOn with
  | nil =>
    exact ⟨[], ⟨rfl, rfl, rfl, List.nodup_nil, by simp, by simp⟩, rfl, Nat.le_refl _, fresh_quiet n, rfl⟩
  | append_singleton ops op ih =>
    obtain ⟨calls, hs, hp⟩ := ih
    have hrun : Session.run env n (ops ++ [op]) = (Session.run env n ops).step env op := by
      simp [Session.run]
    rw [hrun]
    exact step_published env hs hp op

/-- After any operations, the deltas returned since the last reset and those still
queued are the headers and arguments of calls in order, each with an id of its own,
of a registered tool, with arguments its schema accepts, and complete in the text received. -/
theorem run_publishes_safely (n : Nat) (ops : List Op) :
    ∃ calls : List ToolCall,
      (Session.run env n ops).returned ++ (Session.run env n ops).parser.pendingDeltas =
        publishedDeltas calls ∧
      (calls.map ToolCall.id).Nodup ∧
      ∀ call ∈ calls, Validated env call ∧ Earned env ops call := by
  obtain ⟨calls, hs, _⟩ := run_published env n ops
  exact ⟨calls, hs.deltas, hs.distinct, fun c hc => ⟨hs.validated c hc, hs.earned c hc⟩⟩

end ModelServer.Qwen3CoderToolParser
