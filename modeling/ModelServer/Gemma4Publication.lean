import ModelServer.Gemma4Progress
import ModelServer.JsonText

namespace ModelServer.Gemma4ToolParser

/-- What a consumer can do with the parser. -/
inductive Op
  | parseChunk (chunk : Str) (finishReason : FinishReason)
  | drainPendingDelta

/-- A parser, the text it has received and the deltas it has returned since the reset. -/
structure Session where
  parser : Parser
  received : Str := []
  returned : List Delta := []

/-- A published call and the argument container it was published for. -/
structure Publication where
  id : Str
  name : Str
  arguments : Str
  /-- Where the opening bracket stands in the text received. -/
  position : Nat
  body : Str

namespace Publication

/-- Where the closing bracket stands. -/
def close (call : Publication) : Nat := call.position + call.body.length + 1

def delta (call : Publication) (index : Nat) : ToolCallDelta :=
  ⟨index, some call.id, some call.name, call.arguments⟩

/-- The container is complete in the text, both brackets included. -/
def Received (call : Publication) (text : Str) : Prop :=
  Body call.body ∧ ∃ opener closer tail,
    (opener = openBrace ∧ closer = closeBrace ∨ opener = openParen ∧ closer = closeParen) ∧
      text.drop call.position = opener :: (call.body ++ closer :: tail)

theorem Received.append {call : Publication} {text : Str} (h : call.Received text) (x : Str) :
    call.Received (text ++ x) := by
  obtain ⟨hbody, opener, closer, tail, hbrackets, hdrop⟩ := h
  refine ⟨hbody, opener, closer, tail ++ x, hbrackets, ?_⟩
  have hle : call.position ≤ text.length := by
    by_contra hlt
    rw [List.drop_eq_nil_of_le (by omega)] at hdrop
    cases hdrop
  rw [List.drop_append_of_le_length hle, hdrop]
  simp

end Publication

/-- The deltas of calls in order, each with its position as index. -/
def publishedDeltas (calls : List Publication) : List ToolCallDelta :=
  calls.zipIdx.map fun (call, index) => call.delta index

theorem publishedDeltas_append (calls : List Publication) (call : Publication) :
    publishedDeltas (calls ++ [call]) = publishedDeltas calls ++ [call.delta calls.length] := by
  simp [publishedDeltas, List.zipIdx_append]

variable (env : Environment)

namespace Session

def step (s : Session) (op : Op) : Session :=
  match op with
  | .parseChunk chunk finishReason =>
    let (delta, parser) := s.parser.parseChunk env chunk finishReason
    ⟨parser, s.received ++ chunk, s.returned ++ delta.toList⟩
  | .drainPendingDelta =>
    let (delta, parser) := s.parser.drainPendingDelta env
    ⟨parser, s.received, s.returned ++ delta.toList⟩

/-- The operations in order on a parser that has just been reset. -/
def run (p : Parser) (ops : List Op) : Session := ops.foldl (step env) { parser := p.resetState }

end Session

/-- A call may be published for a registered tool, with an id and an object as arguments. -/
structure Sound (text : Str) (call : Publication) : Prop where
  registered : call.name ∈ env.allowedToolNames
  sane : saneToolName call.name = true
  id : call.id ≠ []
  arguments : parseNativeArgumentsBody env.rapidJson call.body = some call.arguments
  received : call.Received text

theorem Sound.append {text : Str} {call : Publication} (h : Sound env text call) (x : Str) :
    Sound env (text ++ x) call :=
  ⟨h.registered, h.sane, h.id, h.arguments, h.received.append x⟩

/-- The containers of the calls follow one another and lie before `bound`. -/
def Ordered (calls : List Publication) (bound : Nat) : Prop :=
  calls.Pairwise (fun call later => call.close < later.position) ∧ ∀ call ∈ calls, call.close < bound

theorem Ordered.mono {calls : List Publication} {bound bound' : Nat} (h : Ordered calls bound)
    (hle : bound ≤ bound') : Ordered calls bound' :=
  ⟨h.1, fun call hm => Nat.lt_of_lt_of_le (h.2 call hm) hle⟩

theorem Ordered.append {calls : List Publication} {call : Publication} {bound : Nat}
    (h : Ordered calls call.position) (hb : call.close < bound) : Ordered (calls ++ [call]) bound := by
  refine ⟨List.pairwise_append.mpr ⟨h.1, List.pairwise_singleton _ _, ?_⟩, ?_⟩
  · intro earlier hm later hl
    rw [List.mem_singleton.mp hl]
    exact h.2 earlier hm
  · intro earlier hm
    rcases List.mem_append.mp hm with hm | hm
    · have hlt := h.2 earlier hm
      simp only [Publication.close] at hb hlt ⊢
      omega
    · rw [List.mem_singleton.mp hm]
      exact hb

/-- The parser after `received`, of which it has dropped the first `erased` bytes. -/
structure Reading (received : Str) (calls : List Publication) (erased : Nat) (p : Parser) : Prop where
  content : p.streamingContent = received.drop erased
  within : erased ≤ received.length
  sound : ∀ call ∈ calls, Sound env received call
  unpublished : p.toolCall.arguments = []
  index : p.toolCallIndex = calls.length - 1

/-- The candidate whose arguments are read may be published. -/
structure Candidate (calls : List Publication) (erased : Nat) (p : Parser) : Prop where
  registered : p.toolCall.name ∈ env.allowedToolNames
  sane : saneToolName p.toolCall.name = true
  id : p.toolCall.id ≠ []
  opener : p.argsOpen = openBrace ∨ p.argsOpen = openParen
  ordered : Ordered calls (erased + p.streamingPosition - 1)

/-- What is kept of a rejected candidate has been read before, too. -/
def readBound (p : Parser) : Nat :=
  if p.currentState = .toolCallParameters ∧ p.rejectedCandidate = true then
    max p.streamingPosition (TOOL_CALL_END_TAG.length - 1)
  else p.streamingPosition

/-- All calls lie before what is still to be read. -/
structure Standing (received : Str) (calls : List Publication) (erased : Nat) (p : Parser) : Prop extends
    Reading env received calls erased p where
  ordered : Ordered calls (erased + readBound p)
  candidate : p.currentState = .toolCallParameters → p.rejectedCandidate = false →
    Candidate env calls erased p

section Step

variable {env} {received : Str} {calls : List Publication} {erased : Nat} {p : Parser}

theorem Publication.Received.getElem? {call : Publication} {text : Str} (h : call.Received text) :
    ∃ c, text[call.close]? = some c ∧ isCloser c = true := by
  obtain ⟨_, opener, closer, tail, hbrackets, hdrop⟩ := h
  refine ⟨closer, ?_, ?_⟩
  · have hget := congrArg (·[call.body.length + 1]?) hdrop
    simp only [List.getElem?_drop] at hget
    rw [Publication.close, Nat.add_assoc, hget]
    simp
  · rcases hbrackets with ⟨_, rfl⟩ | ⟨_, rfl⟩ <;> decide

/-- A tag without brackets that ends behind a container begins behind it. -/
theorem close_lt_of_tag {call : Publication} {tag text : Str} {i : Nat} (h : call.Received text)
    (htag : tag.any isCloser = false) (hat : Occurrence.At tag text i)
    (hend : call.close < i + tag.length) : call.close < i := by
  by_contra hlt
  obtain ⟨k, hk⟩ := Nat.exists_eq_add_of_le (Nat.le_of_not_lt hlt)
  obtain ⟨c, hget, hc⟩ := h.getElem?
  obtain ⟨rest, hrest⟩ := hat
  have hget' : (text.drop i)[k]? = some c := by
    rw [List.getElem?_drop, ← hk, hget]
  rw [← hrest, List.getElem?_append_left (by omega)] at hget'
  have hno := List.any_eq_false.mp htag c (List.mem_of_getElem? hget')
  exact absurd hc hno

theorem Reading.ordered_received (h : Reading env received calls erased p) {bound : Nat}
    (ho : Ordered calls bound) : Ordered calls received.length := by
  refine ⟨ho.1, fun call hm => ?_⟩
  obtain ⟨c, hget, _⟩ := (h.sound call hm).received.getElem?
  exact (List.getElem?_eq_some_iff.mp hget).1

/-- Where a tag is found behind what has been read, all calls lie before it. -/
theorem Reading.ordered_tag (h : Reading env received calls erased p) {tag : Str} {i : Nat}
    (hne : tag ≠ []) (htag : tag.any isCloser = false)
    (hlen : TOOL_CALL_END_TAG.length - 1 < tag.length)
    (ho : Ordered calls (erased + max p.streamingPosition (TOOL_CALL_END_TAG.length - 1)))
    (hfind : p.find tag = some i) : Ordered calls (erased + i) := by
  obtain ⟨hle, hat, _⟩ := (find_eq_some_iff hne).mp hfind
  rw [h.content, Occurrence.at_drop] at hat
  refine ⟨ho.1, fun call hm => ?_⟩
  refine close_lt_of_tag (h.sound call hm).received htag hat ?_
  have hlt := ho.2 call hm
  omega

/-- Reading on in another state than that of arguments. -/
theorem Reading.stand (h : Reading env received calls erased p) {position : Nat} {state : State}
    (hpos : Ordered calls (erased + position)) (hstate : state ≠ .toolCallParameters)
    {rejected : Bool} {call : ToolCall} (hcall : call.arguments = []) :
    Standing env received calls erased { p with
      streamingPosition := position
      currentState := state
      toolCall := call
      rejectedCandidate := rejected } where
  content := h.content
  within := h.within
  sound := h.sound
  unpublished := hcall
  index := h.index
  ordered := by simpa [readBound, hstate] using hpos
  candidate hs := absurd hs hstate

/-- Skipping a rejected candidate publishes nothing and loses nothing that was read. -/
theorem skipRejected_standing (h : Reading env received calls erased p)
    (ho : Ordered calls (erased + max p.streamingPosition (TOOL_CALL_END_TAG.length - 1)))
    (hstate : p.currentState = .toolCallParameters) (hrejected : p.rejectedCandidate = true) :
    ∃ erased', Standing env received calls erased' p.skipRejected.2 := by
  have hstart : ∀ {i}, p.find TOOL_CALL_START_TAG = some i → Ordered calls (erased + i) := fun hf =>
    h.ordered_tag (by decide) (by decide) (by decide) ho hf
  have hend : ∀ {i}, p.find TOOL_CALL_END_TAG = some i → Ordered calls (erased + i) := fun hf =>
    h.ordered_tag (by decide) (by decide) (by decide) ho hf
  rcases Parser.skipRejected_cases p with ⟨start, hs, _, hskip⟩ | ⟨envelopeEnd, he, _, hskip⟩ | ⟨_, _, hskip⟩
  · rw [hskip]
    exact ⟨erased, h.stand (hstart hs) (by simp) rfl⟩
  · rw [hskip]
    exact ⟨erased, h.stand ((hend he).mono (by omega)) (by simp) rfl⟩
  · rw [hskip]
    have hno : ¬ p.rejectedCandidate = false := by simp [hrejected]
    unfold Parser.retainSuffix
    dsimp only
    split
    next hlong =>
      have hlen : p.streamingContent.length = received.length - erased := by simp [h.content]
      have hwithin := h.within
      refine ⟨erased + (p.streamingContent.length - (TOOL_CALL_END_TAG.length - 1)), ?_⟩
      refine ⟨⟨?_, ?_, h.sound, h.unpublished, h.index⟩, ?_, fun _ hr => absurd hr hno⟩
      · simp only [h.content, List.drop_drop]
      · omega
      · have hall := h.ordered_received ho
        refine hall.mono ?_
        simp only [readBound, hstate, hrejected, and_self, if_true]
        omega
    · refine ⟨erased, h, ?_, fun _ hr => absurd hr hno⟩
      simpa [readBound, hstate, hrejected] using ho

theorem readBound_le (p : Parser) :
    readBound p ≤ max p.streamingPosition (TOOL_CALL_END_TAG.length - 1) := by
  unfold readBound
  split <;> omega

theorem le_readBound (p : Parser) : p.streamingPosition ≤ readBound p := by
  unfold readBound
  split <;> omega

/-- Outside a rejected candidate nothing is read twice. -/
theorem Standing.ordered_position (h : Standing env received calls erased p)
    (hs : p.currentState ≠ .toolCallParameters ∨ p.rejectedCandidate = false) :
    Ordered calls (erased + p.streamingPosition) := by
  have ho := h.ordered
  rwa [readBound, if_neg (by rintro ⟨h1, h2⟩; rcases hs with hs | hs <;> simp_all)] at ho

/-- A tag is found at or behind the position. -/
theorem ordered_find (ho : Ordered calls (erased + p.streamingPosition)) {tag : Str} {i : Nat}
    (hne : tag ≠ []) (hfind : p.find tag = some i) (n : Nat) : Ordered calls (erased + (i + n)) := by
  have hle := ((find_eq_some_iff hne).mp hfind).1
  exact ho.mono (by omega)

/-- A candidate is given up. -/
theorem Standing.reject (h : Standing env received calls erased p)
    (ho : Ordered calls (erased + p.streamingPosition)) :
    ∃ erased', Standing env received calls erased' p.reject.skipRejected.2 := by
  have hread : Reading env received calls erased p.reject :=
    ⟨h.content, h.within, h.sound, h.unpublished, h.index⟩
  exact skipRejected_standing hread (ho.mono (Nat.add_le_add_left (Nat.le_max_left _ _) _)) rfl rfl

theorem parseInContentState_standing (h : Standing env received calls erased p)
    (hs : p.currentState = .content) :
    Standing env received calls erased (p.parseInContentState env).2 := by
  have ho := h.ordered_position (Or.inl (by simp [hs]))
  unfold Parser.parseInContentState
  split
  · split
    · exact h.stand ho (by simp) h.unpublished
    · exact h
  next start hf =>
    split
    · exact h
    · exact h.stand (ordered_find ho (by decide) hf _) (by simp) h.unpublished

theorem find_argsOpen {argsPos : Nat}
    (hf : posMin (p.find TOOL_ARGS_START_INDICATOR) (p.find [openParen]) = some argsPos) :
    p.streamingPosition ≤ argsPos ∧ (p.streamingContent.getD argsPos 0 = openBrace ∨
      p.streamingContent.getD argsPos 0 = openParen) := by
  have hone {c : Byte} (hc : p.find [c] = some argsPos) :
      p.streamingPosition ≤ argsPos ∧ p.streamingContent.getD argsPos 0 = c := by
    obtain ⟨hle, ⟨rest, hat⟩, _⟩ := (find_eq_some_iff (by simp)).mp hc
    refine ⟨hle, ?_⟩
    have hget := congrArg (·[0]?) hat
    simp only [List.getElem?_drop, List.cons_append, List.getElem?_cons_zero] at hget
    rw [List.getD_eq_getElem?_getD]
    simp only [Nat.add_zero] at hget
    rw [← hget]
    rfl
  unfold posMin at hf
  split at hf
  · exact (hone hf).imp id Or.inr
  · exact (hone hf).imp id Or.inl

theorem parseInToolCallState_standing (henv : env.enforceToolRegistry = true)
    (h : Standing env received calls erased p) (hs : p.currentState = .toolCallStarted) :
    ∃ erased', Standing env received calls erased' (p.parseInToolCallState env).2 := by
  have ho := h.ordered_position (Or.inl (by simp [hs]))
  rcases Parser.parseInToolCallState_cases env henv p with ⟨argsPos, hf, hstep⟩ | ⟨_, _, hstep⟩ | ⟨_, _, hstep⟩
  · obtain ⟨hle, hopener⟩ := find_argsOpen hf
    have hbrace : TOOL_ARGS_START_INDICATOR.length = 1 := rfl
    rw [hstep]
    refine ⟨erased, ⟨h.content, h.within, h.sound, rfl, h.index⟩, ?_, ?_⟩
    · refine ho.mono ?_
      have hread := le_readBound (p.openArguments env argsPos)
      simp only [Parser.openArguments] at hread ⊢
      omega
    · intro _ hrejected
      simp only [Parser.openArguments, Bool.or_eq_false_iff, Bool.not_eq_false'] at hrejected
      have hregistered : (p.openArguments env argsPos).toolCall.name ∈ env.allowedToolNames :=
        List.contains_iff_mem.mp hrejected.2
      refine ⟨hregistered, hrejected.1, env.randomIds.nonempty _, hopener, ho.mono ?_⟩
      · simp only [Parser.openArguments]
        omega
  · rw [hstep]
    exact h.reject ho
  · rw [hstep]
    exact ⟨erased, h⟩

theorem parseInToolCallEndedState_standing (h : Standing env received calls erased p)
    (hs : p.currentState = .toolCallEnded) :
    ∃ erased', Standing env received calls erased' (p.parseInToolCallEndedState env).2 := by
  have ho := h.ordered_position (Or.inl (by simp [hs]))
  rcases Parser.parseInToolCallEndedState_cases env p with ⟨next, hf, _, hstep⟩ | ⟨envelopeEnd, _, hf, hstep⟩ |
    ⟨_, _, hstep⟩
  · rw [hstep]
    split
    · exact ⟨erased, h.stand (ordered_find ho (by decide) hf 0) (by simp) h.unpublished⟩
    · exact h.reject ho
  · rw [hstep]
    exact ⟨erased, h.stand (ordered_find ho (by decide) hf _) (by simp) h.unpublished⟩
  · rw [hstep]
    exact ⟨erased, h⟩

/-- The parser holds a completed call. -/
def Completed (env : Environment) (received : Str) (calls : List Publication) (erased : Nat)
    (p : Parser) : Prop :=
  ∃ call : Publication, p.currentState = .toolCallEnded ∧ p.toolCall.id = call.id ∧
    p.toolCall.name = call.name ∧ p.toolCall.arguments = call.arguments ∧
    Standing env received (calls ++ [call]) erased
      { p with toolCall := .empty, toolCallIndex := p.toolCallIndex + 1 }

/-- Closed arguments are those of a container that is complete. -/
theorem closeArguments_standing (h : Standing env received calls erased p)
    (hs : p.currentState = .toolCallParameters) (hr : p.rejectedCandidate = false) {close : Nat}
    (hclose : p.argumentsEnd.close = some close) :
    Standing env received calls erased (p.closeArguments env close) ∨
      Completed env received calls erased (p.closeArguments env close) := by
  have ho := h.ordered_position (Or.inr hr)
  have hcandidate := h.candidate hs hr
  obtain ⟨body, tail, hpos, hdrop, hbody, rfl⟩ := findMatchingContainerEnd_sound hclose
  have hcut : substr p.streamingContent p.streamingPosition
      (p.streamingPosition + body.length - p.streamingPosition) = body := by
    have hdrop' := congrArg (List.drop 1) hdrop
    rw [List.drop_drop, Nat.sub_add_cancel hpos, List.drop_succ_cons, List.drop_zero] at hdrop'
    rw [substr, hdrop', Nat.add_sub_cancel_left, List.take_left]
  unfold Parser.closeArguments
  rw [hcut]
  dsimp only
  cases harguments : parseNativeArgumentsBody env.rapidJson body with
  | none => exact Or.inl (h.stand (ho.mono (by omega)) (by simp) rfl)
  | some arguments =>
    right
    let call : Publication :=
      ⟨p.toolCall.id, p.toolCall.name, arguments, erased + p.streamingPosition - 1, body⟩
    have hend : call.close < erased + (p.streamingPosition + body.length + 1) := by
      simp only [Publication.close, call]
      omega
    have hreceived : call.Received received := by
      refine ⟨hbody, p.argsOpen, if p.argsOpen = openParen then closeParen else closeBrace, tail, ?_, ?_⟩
      · rcases hcandidate.opener with ho | ho
        · exact Or.inl ⟨ho, by rw [ho]; decide⟩
        · exact Or.inr ⟨ho, by rw [ho]; decide⟩
      · rw [← hdrop, h.content, List.drop_drop]
        congr 1
        simp only [call]
        omega
    refine ⟨call, rfl, rfl, rfl, rfl, ⟨h.content, h.within, ?_, rfl, ?_⟩, ?_, by simp⟩
    · intro other hm
      rcases List.mem_append.mp hm with hm | hm
      · exact h.sound other hm
      · rw [List.mem_singleton.mp hm]
        exact ⟨hcandidate.registered, hcandidate.sane, hcandidate.id, harguments, hreceived⟩
    · simp only [h.index, List.length_append, List.length_singleton]
      push_cast
      omega
    · exact Ordered.append hcandidate.ordered hend

theorem parseToolCallParametersState_standing (henv : env.enforceToolRegistry = true)
    (h : Standing env received calls erased p) (hs : p.currentState = .toolCallParameters) :
    ∃ erased', Standing env received calls erased' (p.parseToolCallParametersState env).2 ∨
      (p.parseToolCallParametersState env).1 = true ∧
        Completed env received calls erased' (p.parseToolCallParametersState env).2 := by
  have hbound := readBound_le p
  cases hr : p.rejectedCandidate with
  | true =>
    obtain ⟨erased', hstand⟩ := skipRejected_standing h.toReading (h.ordered.mono (by omega)) hs hr
    rw [Parser.parseToolCallParametersState_rejected env henv hr]
    exact ⟨erased', Or.inl hstand⟩
  | false =>
    have ho := h.ordered_position (Or.inr hr)
    rcases Parser.parseToolCallParametersState_cases env henv hr with ⟨close, hclose, hstep⟩ |
      ⟨malformedEnd, _, hmal, hstep⟩ | ⟨_, _, _, hstep⟩ | ⟨_, _, _, hstep⟩
    · rw [hstep]
      exact ⟨erased, (closeArguments_standing h hs hr hclose).imp id fun hc => ⟨rfl, hc⟩⟩
    · have hle := (findMatchingContainerEnd_malformed hmal).1
      rw [hstep]
      exact ⟨erased, Or.inl (h.stand (ho.mono (by omega)) (by simp) rfl)⟩
    · have hsame : ({ p with rejectedCandidate := true } : Parser) = p.reject := by
        rw [Parser.reject, ← hs]
      obtain ⟨erased', hstand⟩ := h.reject ho
      rw [hstep, hsame]
      exact ⟨erased', Or.inl hstand⟩
    · rw [hstep]
      exact ⟨erased, Or.inl h⟩

theorem parseNewContent_standing (henv : env.enforceToolRegistry = true)
    (h : Standing env received calls erased p) :
    ∃ erased', Standing env received calls erased' (p.parseNewContent env).2 ∨
      (p.parseNewContent env).1 = true ∧
        Completed env received calls erased' (p.parseNewContent env).2 := by
  unfold Parser.parseNewContent
  cases hs : p.currentState with
  | content => exact ⟨erased, Or.inl (parseInContentState_standing h hs)⟩
  | toolCallStarted => exact (parseInToolCallState_standing henv h hs).imp fun _ => Or.inl
  | toolCallParameters => exact parseToolCallParametersState_standing henv h hs
  | toolCallEnded => exact (parseInToolCallEndedState_standing h hs).imp fun _ => Or.inl
  | afterToolCall => exact ⟨erased, Or.inl h⟩

/-- A delta that is given out, and the calls published with it. -/
def Gives (env : Environment) (received : Str) (calls : List Publication) (delta : Option Delta) (p : Parser) : Prop :=
  ∃ calls' erased, Standing env received calls' erased p ∧
    publishedDeltas calls' = publishedDeltas calls ++ toolCallDeltas delta.toList

theorem Standing.gives (h : Standing env received calls erased p) :
    Gives env received calls none p :=
  ⟨calls, erased, h, (List.append_nil _).symm⟩

theorem toolCallDeltas_wrapDeltaContent (content : Str) :
    toolCallDeltas (Parser.wrapDeltaContent content).toList = [] := by
  unfold Parser.wrapDeltaContent
  split <;> rfl

theorem giveContent_gives (h : Standing env received calls erased p)
    (hs : p.currentState ≠ .toolCallParameters) (contentEnd : Option Nat) :
    Gives env received calls (p.giveContent contentEnd).1 (p.giveContent contentEnd).2 := by
  have ho := h.ordered_position (Or.inl hs)
  refine ⟨calls, erased, ?_, ?_⟩
  · exact h.stand (ho.mono (by omega)) hs h.unpublished
  · have hnone : toolCallDeltas (p.giveContent contentEnd).1.toList = [] :=
      toolCallDeltas_wrapDeltaContent _
    rw [hnone, List.append_nil]

theorem wrapCompletedToolCall_gives (h : Completed env received calls erased p) :
    Gives env received calls (some (p.wrapCompletedToolCall env).1)
      (p.wrapCompletedToolCall env).2 := by
  obtain ⟨call, hs, hid, hname, harguments, hstand⟩ := h
  have hfresh : call.id.isEmpty = false := by
    simpa using (hstand.sound call (by simp)).id
  have hindex : p.toolCallIndex + 1 = calls.length := by
    have := hstand.index
    simp only [List.length_append, List.length_singleton] at this
    push_cast at this
    omega
  have hwrap : p.wrapCompletedToolCall env =
      (.toolCall (call.delta calls.length),
        { p with toolCall := .empty, toolCallIndex := p.toolCallIndex + 1 }) := by
    simp only [Parser.wrapCompletedToolCall, hid, hfresh, Bool.false_eq_true, if_false, hindex, hname,
      harguments, Publication.delta]
  rw [hwrap]
  exact ⟨calls ++ [call], erased, hstand, publishedDeltas_append calls call⟩

/-- A completed call without arguments is not given out. -/
theorem Completed.standing (h : Completed env received calls erased p)
    (hempty : p.toolCall.arguments = []) : Standing env received calls erased p := by
  obtain ⟨call, hs, _, _, _, hstand⟩ := h
  have hne : p.currentState ≠ .toolCallParameters := by simp [hs]
  have ho := hstand.ordered_position (Or.inl hne)
  refine ⟨⟨hstand.content, hstand.within, ?_, hempty, ?_⟩, ?_, fun hp => absurd hp hne⟩
  · exact fun other hm => hstand.sound other (List.mem_append_left _ hm)
  · have := hstand.index
    simp only [List.length_append, List.length_singleton] at this
    push_cast at this
    omega
  · rw [readBound, if_neg (fun hp => hne hp.1)]
    exact ⟨(List.pairwise_append.mp ho.1).1, fun other hm => ho.2 other (List.mem_append_left _ hm)⟩

/-- One pass of the loop goes on with nothing published, or leaves with what it gives. -/
theorem parseBody_standing (henv : env.enforceToolRegistry = true)
    (h : Standing env received calls erased p) :
    (∀ q, p.parseBody env = .inl q → ∃ erased', Standing env received calls erased' q) ∧
      ∀ r, p.parseBody env = .inr r → Gives env received calls (r.1.getD none) r.2 := by
  obtain ⟨erased', hnext⟩ := parseNewContent_standing henv h
  unfold Parser.parseBody
  cases hparse : p.parseNewContent env with
  | mk progressed q =>
  rw [hparse] at hnext
  have hstanding (hs : q.currentState ≠ .toolCallEnded) : Standing env received calls erased' q := by
    rcases hnext with hstand | ⟨_, call, hq, _⟩
    · exact hstand
    · exact absurd hq hs
  have hquiet (hs : q.currentState = .toolCallEnded) (hempty : q.toolCall.arguments = []) :
      Standing env received calls erased' q := by
    rcases hnext with hstand | ⟨_, hdone⟩
    · exact hstand
    · exact hdone.standing hempty
  dsimp only at hnext ⊢
  cases hs : q.currentState with
  | content =>
    have hstand := hstanding (by simp [hs])
    dsimp only
    split
    · exact ⟨by simp, fun r hr => by cases hr; exact hstand.gives⟩
    · exact ⟨by simp, fun r hr => by cases hr; exact giveContent_gives hstand (by simp [hs]) _⟩
  | toolCallStarted =>
    have hstand := hstanding (by simp [hs])
    dsimp only
    split
    · exact ⟨by simp, fun r hr => by cases hr; exact hstand.gives⟩
    · exact ⟨fun t ht => by cases ht; exact ⟨erased', hstand⟩, by simp⟩
  | toolCallParameters =>
    have hstand := hstanding (by simp [hs])
    dsimp only
    split
    · exact ⟨fun t ht => by cases ht; exact ⟨erased', hstand⟩, by simp⟩
    · exact ⟨by simp, fun r hr => by cases hr; exact hstand.gives⟩
  | toolCallEnded =>
    dsimp only
    split
    next hprogress =>
      have hstand : Standing env received calls erased' q := by
        rcases hnext with hstand | ⟨htrue, _⟩
        · exact hstand
        · simp [htrue] at hprogress
      exact ⟨by simp, fun r hr => by cases hr; exact hstand.gives⟩
    · split
      next hempty =>
        have hstand := hquiet hs (by simpa using hempty)
        exact ⟨fun t ht => by cases ht; exact ⟨erased', hstand⟩, by simp⟩
      next hfull =>
        refine ⟨by simp, fun r hr => ?_⟩
        cases hr
        rcases hnext with hstand | ⟨_, hdone⟩
        · exact absurd hstand.unpublished (by simpa using hfull)
        · exact wrapCompletedToolCall_gives hdone
  | afterToolCall =>
    have hstand := hstanding (by simp [hs])
    dsimp only
    split
    · refine ⟨fun t ht => ?_, by simp⟩
      cases ht
      exact ⟨erased', hstand.stand (hstand.ordered_position (Or.inl (by simp [hs]))) (by simp)
        hstand.unpublished⟩
    · exact ⟨by simp, fun r hr => by cases hr; exact hstand.gives⟩

theorem parseAll_gives (henv : env.enforceToolRegistry = true)
    (h : Standing env received calls erased p) :
    Gives env received calls ((p.parseAll env).1.getD none) (p.parseAll env).2 := by
  have hleave : ∀ q r, (∃ erased, Standing env received calls erased q) → q.parseBody env = .inr r →
      Gives env received calls (r.1.getD none) r.2 := by
    rintro q r ⟨erased, hq⟩ hbody
    exact (parseBody_standing henv hq).2 r hbody
  refine Loop.Exits.invariant ?_ hleave (Parser.parseAll_exits env p) ⟨erased, h⟩
  rintro q r ⟨erased, hq⟩ hbody
  exact (parseBody_standing henv hq).1 r hbody

/-- The last look at the arguments publishes a call that is complete, and no other. -/
theorem finish_gives (henv : env.enforceToolRegistry = true)
    (h : Standing env received calls erased p) :
    Gives env received calls (p.finish env).1 (p.finish env).2 := by
  have hnext : ∃ erased' q, q = (if p.currentState = .toolCallParameters then
        (p.parseToolCallParametersState env).2 else p) ∧
      (Standing env received calls erased' q ∨ Completed env received calls erased' q) := by
    split
    next hs =>
      obtain ⟨erased', hq⟩ := parseToolCallParametersState_standing henv h hs
      exact ⟨erased', _, rfl, hq.imp id And.right⟩
    · exact ⟨erased, p, rfl, Or.inl h⟩
  obtain ⟨erased', q, hq, hnext⟩ := hnext
  unfold Parser.finish
  rw [← hq]
  dsimp only
  split
  next hfull =>
    rcases hnext with hstand | hdone
    · exact absurd hstand.unpublished hfull.2
    · exact wrapCompletedToolCall_gives hdone
  next hfull =>
    have hstand : Standing env received calls erased' q := by
      rcases hnext with hstand | hdone
      · exact hstand
      · refine hdone.standing ?_
        have hs : q.currentState = .toolCallEnded := hdone.choose_spec.1
        by_contra hne
        exact hfull ⟨Or.inr hs, hne⟩
    split
    next hcontent => exact giveContent_gives hstand (by simp [hcontent.1]) none
    · exact hstand.gives

/-- New text changes nothing about the calls that are published. -/
theorem Standing.append (h : Standing env received calls erased p) (chunk : Str) :
    Standing env (received ++ chunk) calls erased (p.append chunk) where
  content := by
    have hwithin := h.within
    rw [List.drop_append_of_le_length hwithin, ← h.content]
    rfl
  within := by
    have hwithin := h.within
    rw [List.length_append]
    omega
  sound call hm := (h.sound call hm).append env chunk
  unpublished := h.unpublished
  index := h.index
  ordered := h.ordered
  candidate hs hr :=
    let candidate := h.candidate hs hr
    ⟨candidate.registered, candidate.sane, candidate.id, candidate.opener, candidate.ordered⟩

theorem parseChunk_gives (henv : env.enforceToolRegistry = true)
    (h : Standing env received calls erased p) (chunk : Str) (finishReason : FinishReason) :
    Gives env (received ++ chunk) calls (p.parseChunk env chunk finishReason).1
      (p.parseChunk env chunk finishReason).2 := by
  have hall := parseAll_gives henv (h.append chunk)
  unfold Parser.parseChunk
  cases hparse : (p.append chunk).parseAll env with
  | mk delta q =>
  rw [hparse] at hall
  cases delta with
  | some delta => exact hall
  | none =>
    dsimp only
    split
    · obtain ⟨calls', erased', hq, hcalls⟩ := hall
      obtain ⟨calls'', erased'', hr, hcalls'⟩ := finish_gives henv hq
      refine ⟨calls'', erased'', hr, hcalls'.trans ?_⟩
      rw [hcalls]
      simp [toolCallDeltas]
    · exact hall

end Step

section Run

/-- The calls published in a session so far. -/
def Session.Publishes (s : Session) (calls : List Publication) : Prop :=
  toolCallDeltas s.returned = publishedDeltas calls ∧
    ∃ erased, Standing env s.received calls erased s.parser

theorem Session.step_publishes (henv : env.enforceToolRegistry = true) {s : Session}
    {calls : List Publication} (h : s.Publishes env calls) (op : Op) : ∃ calls', (s.step env op).Publishes env calls' := by
  obtain ⟨hreturned, erased, hstand⟩ := h
  cases op with
  | parseChunk chunk finishReason =>
    obtain ⟨calls', erased', hstand', hcalls⟩ := parseChunk_gives henv hstand chunk finishReason
    refine ⟨calls', ?_, erased', hstand'⟩
    rw [hcalls, ← hreturned]
    exact toolCallDeltas_append _ _
  | drainPendingDelta =>
    obtain ⟨calls', erased', hstand', hcalls⟩ := parseChunk_gives henv hstand [] .none
    rw [List.append_nil] at hstand'
    refine ⟨calls', ?_, erased', hstand'⟩
    rw [hcalls, ← hreturned]
    exact toolCallDeltas_append _ _

theorem Session.run_publishes (henv : env.enforceToolRegistry = true) (p : Parser) (ops : List Op) :
    ∃ calls, (Session.run env p ops).Publishes env calls := by
  have hstart : Session.Publishes env { parser := p.resetState } [] :=
    ⟨rfl, 0, ⟨⟨rfl, Nat.zero_le _, by simp, rfl, rfl⟩, ⟨List.Pairwise.nil, by simp⟩, by simp [Parser.resetState]⟩⟩
  have hfold (ops : List Op) (s : Session) (calls : List Publication) (h : s.Publishes env calls) :
      ∃ calls', (ops.foldl (Session.step env) s).Publishes env calls' := by
    induction ops generalizing s calls with
    | nil => exact ⟨calls, h⟩
    | cons op ops ih =>
      obtain ⟨calls', h'⟩ := Session.step_publishes env henv h op
      exact ih _ calls' h'
  exact hfold ops _ [] hstart

/-- One tool, `f`, is registered. -/
def singleToolEnvironment : Environment where
  rapidJson := .textual
  randomIds := .growing
  allowedToolNames := [bytes "f"]

/-- A call that arrives in two pieces, and a generation that ends within the next one. -/
def callThenOpen : List Op :=
  [.parseChunk (bytes "<|tool_call>call:f\x7bn:1") .none, .parseChunk (bytes "\x7d<tool_call|><|tool_call>call:f\x7b") .none,
    .drainPendingDelta, .parseChunk [] .stop]

end Run

end ModelServer.Gemma4ToolParser
