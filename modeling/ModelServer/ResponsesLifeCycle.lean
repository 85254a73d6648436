import ModelServer.Responses
import ModelServer.RapidJson

namespace ModelServer.OpenAIResponsesHandler

def EventType.isDelta : EventType → Bool
  | .outputTextDelta | .reasoningSummaryTextDelta | .functionCallArgumentsDelta => true
  | _ => false

def EventType.isDone : EventType → Bool
  | .outputItemDone | .contentPartDone | .outputTextDone | .reasoningSummaryPartDone
  | .reasoningSummaryTextDone | .functionCallArgumentsDone => true
  | _ => false

/-- Events between the opening and the closing of an item. -/
def EventType.isInner (type : EventType) : Bool := !type.isDone && type != .outputItemAdded

/-- The delta, text, part, summary or arguments of an event. -/
def Event.text (e : Event) : Str :=
  match e.payload with
  | .text _ _ text => text
  | .outputItem _ item => item.text
  | _ => []

/-- The events of one item. -/
def about (events : List Event) (item : Item) : List Event := events.filter (·.item == some item)

/-- The delta events, joined. -/
def deltaText (events : List Event) : Str := (events.filter (·.type.isDelta)).flatMap Event.text

/-- An item is added first and done last, each once, and what is done is what came in deltas. -/
structure LifeCycle (events : List Event) : Prop where
  shape : ∃ added middle done, events = added :: (middle ++ [done]) ∧ added.type = .outputItemAdded ∧
    done.type = .outputItemDone ∧ ∀ e ∈ middle, e.type ≠ .outputItemAdded ∧ e.type ≠ .outputItemDone
  text : ∀ e ∈ events, e.type.isDone = true → e.text = deltaText events

/-- An item has been added and has had these texts in deltas. -/
structure Opened (events : List Event) (text : Str) : Prop where
  shape : ∃ added middle, events = added :: middle ∧ added.type = .outputItemAdded ∧
    ∀ e ∈ middle, e.type.isInner = true
  text : deltaText events = text

section Items

theorem deltaText_append (events more : List Event) :
    deltaText (events ++ more) = deltaText events ++ deltaText more := by
  simp [deltaText]

theorem deltaText_single (e : Event) : deltaText [e] = if e.type.isDelta then e.text else [] := by
  unfold deltaText
  split
  next h => simp [h]
  next h => simp [h]

/-- Another delta, or a part that is added. -/
theorem Opened.append {events : List Event} {text : Str} (h : Opened events text) {e : Event}
    (he : e.type.isInner = true) : Opened (events ++ [e]) (text ++ if e.type.isDelta then e.text else []) := by
  obtain ⟨⟨added, middle, rfl, hadded, hmiddle⟩, htext⟩ := h
  refine ⟨⟨added, middle ++ [e], rfl, hadded, ?_⟩, ?_⟩
  · intro e' hm
    rcases List.mem_append.mp hm with hm | hm
    · exact hmiddle e' hm
    · rw [List.mem_singleton.mp hm]
      exact he
  · rw [deltaText_append, htext, deltaText_single]

theorem opened_single {e : Event} (he : e.type = .outputItemAdded) : Opened [e] [] := by
  refine ⟨⟨e, [], rfl, he, by simp⟩, ?_⟩
  rw [deltaText_single, he]
  rfl

theorem not_delta_of_done {type : EventType} (h : type.isDone = true) : type.isDelta = false := by
  cases type <;> first | rfl | cases h

/-- An item that is being closed: its texts are done, it is not. -/
structure Closing (events : List Event) (text : Str) : Prop where
  shape : ∃ opened dones, events = opened ++ dones ∧ Opened opened text ∧
    ∀ e ∈ dones, e.type.isDone = true ∧ e.type ≠ .outputItemDone ∧ e.text = text

theorem Opened.closing {events : List Event} {text : Str} (h : Opened events text) : Closing events text :=
  ⟨⟨events, [], by simp, h, by simp⟩⟩

theorem Closing.append {events : List Event} {text : Str} (h : Closing events text) {e : Event}
    (hdone : e.type.isDone = true) (hne : e.type ≠ .outputItemDone) (htext : e.text = text) :
    Closing (events ++ [e]) text := by
  obtain ⟨⟨opened, dones, rfl, hopened, hdones⟩⟩ := h
  refine ⟨⟨opened, dones ++ [e], by simp, hopened, ?_⟩⟩
  intro e' hm
  rcases List.mem_append.mp hm with hm | hm
  · exact hdones e' hm
  · rw [List.mem_singleton.mp hm]
    exact ⟨hdone, hne, htext⟩

theorem Closing.finish {events : List Event} {text : Str} {last : Event} (h : Closing events text)
    (hlast : last.type = .outputItemDone) (htext : last.text = text) : LifeCycle (events ++ [last]) := by
  obtain ⟨⟨_, dones, rfl, ⟨⟨added, middle, rfl, hadded, hmiddle⟩, hdelta⟩, hdones⟩⟩ := h
  have hsilent : deltaText (dones ++ [last]) = [] := by
    unfold deltaText
    rw [List.filter_eq_nil_iff.mpr]
    · rfl
    · intro e hm
      rcases List.mem_append.mp hm with hm | hm
      · simp [not_delta_of_done (hdones e hm).1]
      · rw [List.mem_singleton.mp hm, hlast]
        decide
  refine ⟨⟨added, middle ++ dones, last, by simp, hadded, hlast, ?_⟩, ?_⟩
  · intro e hm
    rcases List.mem_append.mp hm with hm | hm
    · have hinner := hmiddle e hm
      constructor <;> intro htype <;> rw [htype] at hinner <;> cases hinner
    · obtain ⟨hdone, hne, _⟩ := hdones e hm
      refine ⟨fun htype => ?_, hne⟩
      rw [htype] at hdone
      cases hdone
  · intro e hm hdone
    rw [List.append_assoc, deltaText_append, hsilent, List.append_nil, hdelta]
    rw [List.append_assoc] at hm
    rcases List.mem_append.mp hm with hm | hm
    · rcases List.mem_cons.mp hm with rfl | hm
      · rw [hadded] at hdone
        cases hdone
      · have hinner := hmiddle e hm
        simp [EventType.isInner, hdone] at hinner
    · rcases List.mem_append.mp hm with hm | hm
      · exact (hdones e hm).2.2
      · rw [List.mem_singleton.mp hm]
        exact htext

end Items

/-- A C string is appended to without loss: nothing that is written hides behind a NUL. -/
def Joins (before text : Str) : Prop := 0 ∉ before ∨ cStr text = []

theorem cStr_append {before text : Str} (h : Joins before text) :
    cStr (before ++ text) = cStr before ++ cStr text := by
  by_cases hnul : 0 ∈ before
  · have htext : cStr text = [] := h.resolve_left (fun hn => hn hnul)
    have hstop : (cStr before).length ≠ before.length := by
      intro hlen
      have hall := List.takeWhile_eq_self_iff.mp (List.takeWhile_sublist _ |>.eq_of_length hlen)
      simpa using hall 0 hnul
    rw [htext, List.append_nil]
    unfold cStr at hstop ⊢
    rw [List.takeWhile_append, if_neg hstop]
  · rw [RapidJson.cStr_of_noNul hnul]
    unfold cStr
    apply List.takeWhile_append_of_pos
    intro c hc
    have hne : c ≠ 0 := by
      rintro rfl
      exact hnul hc
    simpa using hne

/-- The stages of the reasoning item: whether it is initialized, whether it is completed, and its text. -/
inductive ReasoningStage : Bool → Bool → Str → List Event → Prop
  | absent : ReasoningStage false false [] []
  | opened {text : Str} {own : List Event} (hown : Opened own (cStr text)) : ReasoningStage true false text own
  | closed {text : Str} {own : List Event} (hown : LifeCycle own) : ReasoningStage true true text own

inductive MessageStage : Bool → Str → List Event → Prop
  | absent : MessageStage false [] []
  | opened {text : Str} {own : List Event} (htext : text ≠ []) (hown : Opened own (cStr text)) :
      MessageStage true text own

/-- The call at an index that has been named is open. -/
def CallStage (named : List Nat) (toolCalls : List ToolCall) (i : Nat) (own : List Event) : Prop :=
  if i ∈ named then ∃ toolCall, toolCalls[i]? = some toolCall ∧ Opened own (cStr toolCall.arguments)
  else own = []

namespace Stream

variable {x : Stream}

@[simp] theorem about_emplace (type : EventType) (item : Option Item) (payload : Payload) (k : Item) :
    about (x.emplace type item payload).events k =
      about x.events k ++
        if item = some k then [⟨type, x.responsesState.sequenceNumber, item, payload⟩] else [] := by
  by_cases h : item = some k
  · simp [about, emplace, h]
  · simp [about, emplace, h]

@[simp] theorem emplace_responsesState (type : EventType) (item : Option Item) (payload : Payload) :
    (x.emplace type item payload).responsesState =
      { x.responsesState with sequenceNumber := x.responsesState.sequenceNumber + 1 } :=
  rfl

/-- The events are numbered from one on. -/
structure Numbered (x : Stream) : Prop where
  numbers : x.events.map (·.sequenceNumber) = List.range' 1 x.events.length
  next : x.responsesState.sequenceNumber = x.events.length + 1

theorem Numbered.emplace (h : Numbered x) (type : EventType) (item : Option Item) (payload : Payload) :
    Numbered (x.emplace type item payload) := by
  constructor
  · simp [Stream.emplace, h.numbers, h.next, List.range'_concat]
    omega
  · simp [Stream.emplace, h.next]

/-- What holds between two chunks, when these calls have been named. -/
structure Standing (x : Stream) (named : List Nat) : Prop where
  numbered : Numbered x
  reasoning : ReasoningStage x.responsesState.reasoningInitialized x.responsesState.reasoningCompleted
    x.responsesState.reasoningText (about x.events .reasoning)
  message : MessageStage x.responsesState.messageInitialized x.responsesState.outputText (about x.events .message)
  calls : ∀ i, CallStage named x.responsesState.toolCalls i (about x.events (.functionCall i))
  covered : ∀ i < x.responsesState.toolCalls.length, ∃ j ∈ named, i ≤ j

variable {named : List Nat}

theorem standing_initial : Standing {} [] := by
  refine ⟨⟨rfl, rfl⟩, .absent, .absent, ?_, ?_⟩
  · intro i
    rfl
  · intro i hi
    cases hi

theorem Numbered.of_eq {y : Stream} (h : Numbered x) (hevents : y.events = x.events)
    (hnext : y.responsesState.sequenceNumber = x.responsesState.sequenceNumber) : Numbered y := by
  refine ⟨?_, ?_⟩
  · rw [hevents]
    exact h.numbers
  · rw [hnext, hevents]
    exact h.next

theorem Standing.emplace (h : Standing x named) (type : EventType) (payload : Payload) :
    Standing (x.emplace type none payload) named := by
  refine ⟨h.numbered.emplace .., ?_, ?_, ?_, ?_⟩
  · simpa using h.reasoning
  · simpa using h.message
  · simpa using h.calls
  · simpa using h.covered

theorem Standing.serializeStreamingCreatedEvent (h : Standing x named) :
    Standing x.serializeStreamingCreatedEvent named := by
  unfold Stream.serializeStreamingCreatedEvent
  split
  next => exact h
  next =>
    apply Standing.emplace
    exact ⟨h.numbered.of_eq rfl rfl, h.reasoning, h.message, h.calls, h.covered⟩

theorem Standing.serializeStreamingInProgressEvent (h : Standing x named) :
    Standing x.serializeStreamingInProgressEvent named := by
  unfold Stream.serializeStreamingInProgressEvent
  split
  next => exact h
  next =>
    apply Standing.emplace
    exact ⟨h.numbered.of_eq rfl rfl, h.reasoning, h.message, h.calls, h.covered⟩

/-- The reasoning item is not open. -/
theorem Standing.closeReasoning (h : Standing x named) :
    Standing x.closeReasoning named ∧
      x.closeReasoning.responsesState.reasoningCompleted = x.closeReasoning.responsesState.reasoningInitialized := by
  unfold Stream.closeReasoning
  split
  next hopen =>
    obtain ⟨hinitialized, hcompleted⟩ : x.responsesState.reasoningInitialized = true ∧
        x.responsesState.reasoningCompleted = false := by simpa using hopen
    have hstage := h.reasoning
    rw [hinitialized, hcompleted] at hstage
    refine ⟨⟨?_, ?_, ?_, ?_, ?_⟩, hinitialized.symm⟩
    · exact (((h.numbered.emplace ..).emplace ..).emplace ..).of_eq rfl rfl
    · cases hstage with
      | opened hown =>
        simp only [reasoningText, about_emplace, emplace_responsesState, hinitialized, ↓reduceIte]
        exact .closed (((hown.closing.append rfl (by simp) rfl).append rfl (by simp) rfl).finish rfl rfl)
    · simpa [reasoningText] using h.message
    · simpa [reasoningText] using h.calls
    · simpa [reasoningText] using h.covered
  next hclosed =>
    refine ⟨h, ?_⟩
    have hstage := h.reasoning
    cases hc : x.responsesState.reasoningCompleted <;> cases hi : x.responsesState.reasoningInitialized
    all_goals simp_all
    cases hstage

@[simp] theorem closeReasoning_outputText :
    x.closeReasoning.responsesState.outputText = x.responsesState.outputText := by
  unfold closeReasoning
  split <;> rfl

@[simp] theorem closeReasoning_toolCalls :
    x.closeReasoning.responsesState.toolCalls = x.responsesState.toolCalls := by
  unfold closeReasoning
  split <;> rfl

theorem Standing.appendReasoningDeltaEvents (h : Standing x named) (text : Str)
    (hopen : x.responsesState.reasoningCompleted = false) (hjoins : Joins x.responsesState.reasoningText text) :
    Standing (x.appendReasoningDeltaEvents text) named := by
  have hstage := h.reasoning
  unfold Stream.appendReasoningDeltaEvents
  split
  next hinitialized =>
    rw [hinitialized, hopen] at hstage
    refine ⟨?_, ?_, ?_, ?_, ?_⟩
    · apply Numbered.emplace
      exact h.numbered.of_eq rfl rfl
    · cases hstage with
      | opened hown =>
        simp only [reasoningText, about_emplace, emplace_responsesState, hinitialized, hopen, ↓reduceIte]
        apply ReasoningStage.opened
        rw [cStr_append hjoins]
        exact hown.append rfl
    · simpa [reasoningText] using h.message
    · simpa [reasoningText] using h.calls
    · simpa [reasoningText] using h.covered
  next hinitialized =>
    have hinitialized : x.responsesState.reasoningInitialized = false := by simpa using hinitialized
    rw [hinitialized, hopen] at hstage
    refine ⟨?_, ?_, ?_, ?_, ?_⟩
    · apply Numbered.emplace
      exact ((h.numbered.emplace ..).emplace ..).of_eq rfl rfl
    · generalize hown : about x.events .reasoning = own at hstage
      generalize htext : x.responsesState.reasoningText = before at hstage hjoins
      cases hstage with
      | absent =>
        simp only [reasoningText, about_emplace, emplace_responsesState, hopen, hown, htext, ↓reduceIte]
        apply ReasoningStage.opened
        exact ((opened_single rfl).append rfl).append rfl
    · simpa [reasoningText] using h.message
    · simpa [reasoningText] using h.calls
    · simpa [reasoningText] using h.covered

theorem openMessage_responsesState (msgIdx : Nat) :
    ∃ n, (x.openMessage msgIdx).responsesState =
      { x.responsesState with messageInitialized := true, sequenceNumber := n } := by
  unfold openMessage
  split
  next hinitialized =>
    refine ⟨x.responsesState.sequenceNumber, ?_⟩
    rw [← hinitialized]
  next => exact ⟨_, rfl⟩

theorem about_openMessage (msgIdx : Nat) {k : Item} (hk : k ≠ .message) :
    about (x.openMessage msgIdx).events k = about x.events k := by
  unfold openMessage
  split
  next => rfl
  next => simp [messageText, hk.symm]

theorem Numbered.openMessage (h : Numbered x) (msgIdx : Nat) : Numbered (x.openMessage msgIdx) := by
  unfold Stream.openMessage
  split
  next => exact h
  next => exact ((h.emplace ..).emplace ..).of_eq rfl rfl

/-- The message item is open, and its text is what it was. -/
theorem opened_openMessage (hstage : MessageStage x.responsesState.messageInitialized
      x.responsesState.outputText (about x.events .message)) (msgIdx : Nat) :
    Opened (about (x.openMessage msgIdx).events .message) (cStr x.responsesState.outputText) := by
  unfold Stream.openMessage
  split
  next hinitialized =>
    rw [hinitialized] at hstage
    cases hstage with
    | opened _ hown => exact hown
  next hinitialized =>
    have hinitialized : x.responsesState.messageInitialized = false := by simpa using hinitialized
    rw [hinitialized] at hstage
    generalize hown : about x.events .message = own at hstage
    generalize x.responsesState.outputText = before at hstage
    cases hstage with
    | absent =>
      simp only [messageText, about_emplace, hown, ↓reduceIte]
      exact (opened_single rfl).append rfl

theorem Standing.appendContentDeltaEvents (h : Standing x named) (text : Str)
    (hjoins : Joins x.responsesState.outputText text) : Standing (x.appendContentDeltaEvents text) named := by
  unfold Stream.appendContentDeltaEvents
  split
  next => exact h
  next htext =>
    have hclosed := h.closeReasoning.1
    rw [← closeReasoning_outputText] at hjoins
    generalize x.closeReasoning = y at hclosed hjoins
    obtain ⟨n, hstate⟩ := openMessage_responsesState (x := y) y.baseIdx
    refine ⟨?_, ?_, ?_, ?_, ?_⟩
    · apply Numbered.emplace
      exact (hclosed.numbered.openMessage _).of_eq rfl rfl
    · simpa [messageText, hstate, about_openMessage] using hclosed.reasoning
    · have hown := opened_openMessage hclosed.message y.baseIdx
      simp only [messageText, about_emplace, emplace_responsesState, hstate, ↓reduceIte]
      apply MessageStage.opened
      · simp_all
      · rw [cStr_append hjoins]
        exact hown.append rfl
    · simpa [messageText, hstate, about_openMessage] using hclosed.calls
    · simpa [messageText, hstate, about_openMessage] using hclosed.covered

theorem setToolCall_getElem? (toolCalls : List ToolCall) (index : Nat) (toolCall : ToolCall) :
    (setToolCall toolCalls index toolCall)[index]? = some toolCall := by
  unfold setToolCall
  apply List.getElem?_set_self
  simp
  omega

theorem setToolCall_getElem?_of_lt {toolCalls : List ToolCall} {index i : Nat} (toolCall : ToolCall)
    (hne : i ≠ index) (hi : i < toolCalls.length) :
    (setToolCall toolCalls index toolCall)[i]? = toolCalls[i]? := by
  unfold setToolCall
  rw [List.getElem?_set_ne hne.symm, List.getElem?_append_left hi]

theorem length_setToolCall (toolCalls : List ToolCall) (index : Nat) (toolCall : ToolCall) :
    (setToolCall toolCalls index toolCall).length = max toolCalls.length (index + 1) := by
  simp [setToolCall]
  omega

theorem Standing.addToolCall (h : Standing x named) {index : Nat} (hindex : index ∉ named) {toolCall : ToolCall}
    (harguments : toolCall.arguments = []) (payload : Payload) :
    Standing (Stream.emplace
      { x with responsesState := { x.responsesState with
        toolCalls := setToolCall x.responsesState.toolCalls index toolCall } }
      .outputItemAdded (some (.functionCall index)) payload) (index :: named) := by
  refine ⟨?_, ?_, ?_, ?_, ?_⟩
  · apply Numbered.emplace
    exact h.numbered.of_eq rfl rfl
  · simpa using h.reasoning
  · simpa using h.message
  · intro i
    have hstage := h.calls i
    simp only [about_emplace, emplace_responsesState]
    by_cases hi : i = index
    · subst hi
      have hown : about x.events (.functionCall i) = [] := by simpa [CallStage, hindex] using hstage
      simp only [CallStage, List.mem_cons_self, hown, ↓reduceIte]
      refine ⟨toolCall, setToolCall_getElem? .., ?_⟩
      rw [harguments]
      exact opened_single rfl
    · by_cases hm : i ∈ named
      · obtain ⟨c, hc, hopened⟩ : ∃ c, x.responsesState.toolCalls[i]? = some c ∧
            Opened (about x.events (.functionCall i)) (cStr c.arguments) := by simpa [CallStage, hm] using hstage
        have hlt := (List.getElem?_eq_some_iff.mp hc).1
        have hc' := (setToolCall_getElem?_of_lt toolCall hi hlt).trans hc
        simp only [CallStage, hm, List.mem_cons, or_true, hc', Ne.symm hi, ↓reduceIte, List.append_nil,
          Option.some.injEq, Item.functionCall.injEq]
        exact ⟨c, rfl, hopened⟩
      · simpa [CallStage, hm, hi, Ne.symm hi] using hstage
  · intro i hi
    simp only [emplace_responsesState, length_setToolCall] at hi
    by_cases hlt : i < x.responsesState.toolCalls.length
    · obtain ⟨j, hj, hle⟩ := h.covered i hlt
      exact ⟨j, List.mem_cons_of_mem _ hj, hle⟩
    · exact ⟨index, List.mem_cons_self, by omega⟩

theorem Standing.addArguments (h : Standing x named) {index : Nat} (hindex : index ∈ named) {toolCall : ToolCall}
    (hcall : x.responsesState.toolCalls[index]? = some toolCall) {arguments : Str}
    (hjoins : Joins toolCall.arguments arguments) (outputIndex : Nat) (itemId : Str) :
    Standing (Stream.emplace
      { x with responsesState := { x.responsesState with
        toolCalls := x.responsesState.toolCalls.set index { toolCall with arguments := toolCall.arguments ++ arguments } } }
      .functionCallArgumentsDelta (some (.functionCall index)) (.text outputIndex itemId (cStr arguments))) named := by
  refine ⟨?_, ?_, ?_, ?_, ?_⟩
  · apply Numbered.emplace
    exact h.numbered.of_eq rfl rfl
  · simpa using h.reasoning
  · simpa using h.message
  · intro i
    have hstage := h.calls i
    simp only [about_emplace, emplace_responsesState]
    by_cases hi : index = i
    · subst hi
      obtain ⟨hlt, _⟩ := List.getElem?_eq_some_iff.mp hcall
      obtain ⟨c, hc, hopened⟩ : ∃ c, x.responsesState.toolCalls[index]? = some c ∧
          Opened (about x.events (.functionCall index)) (cStr c.arguments) := by
        simpa [CallStage, hindex] using hstage
      cases hcall.symm.trans hc
      simp only [CallStage, hindex, List.getElem?_set_self hlt, ↓reduceIte]
      refine ⟨_, rfl, ?_⟩
      rw [cStr_append hjoins]
      exact hopened.append rfl
    · simpa [CallStage, List.getElem?_set_ne hi, hi] using hstage
  · simpa using h.covered

/-- An index is named once, before its other deltas. -/
structure AdmittedCall (named : List Nat) (toolCalls : List ToolCall) (d : ToolCallDelta) : Prop where
  nonneg : 0 ≤ d.index
  once : d.name ≠ none → d.index.toNat ∉ named
  started : d.name = none → d.index.toNat ∈ named
  joins : d.name = none → ∀ toolCall, toolCalls[d.index.toNat]? = some toolCall →
    Joins toolCall.arguments d.arguments

/-- The indexes of the calls that a delta names. -/
def namedBy : Delta → List Nat
  | .toolCall d => if d.name = none then [] else [d.index.toNat]
  | _ => []

theorem Standing.appendToolCallDeltaEvents (h : Standing x named) {d : ToolCallDelta}
    (hadmitted : AdmittedCall named x.responsesState.toolCalls d) :
    Standing (x.appendToolCallDeltaEvents d) (namedBy (.toolCall d) ++ named) := by
  have hclosed := h.closeReasoning.1
  rw [← closeReasoning_toolCalls] at hadmitted
  unfold Stream.appendToolCallDeltaEvents
  generalize x.closeReasoning = y at hclosed hadmitted
  cases hname : d.name with
  | none =>
    simp only [namedBy, hname, ↓reduceIte, List.nil_append]
    split
    next => exact hclosed
    next toolCall hcall =>
      split
      next => exact hclosed
      next => exact hclosed.addArguments (hadmitted.started hname) hcall (hadmitted.joins hname toolCall hcall) _ _
  | some name =>
    have honce := hadmitted.once (by simp [hname])
    have hadded := @Standing.addToolCall _ _ hclosed _ honce ⟨d.id.getD [], name, []⟩ rfl
      (.outputItem (y.baseIdx + d.index.toNat)
        ⟨.functionCall d.index.toNat, cStr (d.id.getD []), some .inProgress, cStr name, []⟩)
    simp only [namedBy, hname, reduceCtorEq, ↓reduceIte, List.singleton_append]
    split
    next => exact hadded
    next toolCall hcall =>
      split
      next => exact hadded
      next =>
        have harguments : toolCall.arguments = [] := by
          simp only [emplace_responsesState, setToolCall_getElem?, Option.some.injEq] at hcall
          rw [← hcall]
        exact hadded.addArguments List.mem_cons_self hcall (Or.inl (by simp [harguments])) _ _

/-- What a delta has to meet, given the state and the calls named before it. -/
def Admitted (named : List Nat) (s : ResponsesStreamingState) : Delta → Prop
  | .reasoning text => s.reasoningCompleted = false ∧ Joins s.reasoningText text
  | .content text => Joins s.outputText text
  | .toolCall d => AdmittedCall named s.toolCalls d
  | _ => True

theorem admitted_serializeStreamingCreatedEvent (delta : Delta) :
    Admitted named x.serializeStreamingCreatedEvent.responsesState delta ↔ Admitted named x.responsesState delta := by
  unfold serializeStreamingCreatedEvent
  split
  next => rfl
  next => cases delta <;> rfl

theorem admitted_serializeStreamingInProgressEvent (delta : Delta) :
    Admitted named x.serializeStreamingInProgressEvent.responsesState delta ↔ Admitted named x.responsesState delta := by
  unfold serializeStreamingInProgressEvent
  split
  next => rfl
  next => cases delta <;> rfl

theorem Standing.appendDeltaEvents (h : Standing x named) {delta : Delta}
    (hadmitted : Admitted named x.responsesState delta) :
    Standing (x.appendDeltaEvents delta) (namedBy delta ++ named) := by
  cases delta with
  | audio base64 => exact h.emplace ..
  | reasoning text => exact h.appendReasoningDeltaEvents text hadmitted.1 hadmitted.2
  | content text => exact h.appendContentDeltaEvents text hadmitted
  | toolCall d => exact h.appendToolCallDeltaEvents hadmitted
  | finish => exact h

/-- One chunk, up to the events of its finish. -/
theorem Standing.chunk (h : Standing x named) {delta : Delta} (hadmitted : Admitted named x.responsesState delta) :
    Standing (x.serializeStreamingCreatedEvent.serializeStreamingInProgressEvent.appendDeltaEvents delta)
      (namedBy delta ++ named) := by
  apply h.serializeStreamingCreatedEvent.serializeStreamingInProgressEvent.appendDeltaEvents
  rw [admitted_serializeStreamingInProgressEvent, admitted_serializeStreamingCreatedEvent]
  exact hadmitted

/-- Every delta of a generation is admitted where it stands. -/
def AllAdmitted (x : Stream) (named : List Nat) : List Delta → Prop
  | [] => True
  | delta :: deltas => Admitted named x.responsesState delta ∧
      AllAdmitted (x.serializeStreamingChunk delta .none) (namedBy delta ++ named) deltas

theorem Standing.run {deltas : List Delta} {last : Delta} (h : Standing x named)
    (hadmitted : AllAdmitted x named (deltas ++ [last])) :
    ∃ y named', (∀ i, i ∈ named' ↔ i ∈ (deltas ++ [last]).flatMap namedBy ∨ i ∈ named) ∧ Standing y named' ∧
      ∀ finishReason, finishReason ≠ .none →
        (deltas.foldl (fun (x : Stream) delta => x.serializeStreamingChunk delta .none) x).serializeStreamingChunk
          last finishReason = y.finish finishReason := by
  induction deltas generalizing x named with
  | nil =>
    refine ⟨_, _, ?_, h.chunk hadmitted.1, ?_⟩
    · intro i
      simp
    · intro finishReason hreason
      simp [Stream.serializeStreamingChunk, hreason]
  | cons delta deltas ih =>
    obtain ⟨y, named', hnamed, hy⟩ := ih (h.chunk hadmitted.1) hadmitted.2
    refine ⟨y, named', ?_, hy⟩
    intro i
    rw [hnamed]
    simp only [List.cons_append, List.flatMap_cons, List.mem_append]
    tauto

/-- The events of one call and of no other item. -/
theorem closeToolCall_about (finishReason : FinishReason) (base : Nat) (toolCall : ToolCall) (index : Nat)
    {k : Item} (hk : k ≠ .functionCall index) :
    about (x.closeToolCall finishReason base toolCall index).events k = about x.events k := by
  simp [closeToolCall, hk.symm]

theorem closeToolCall_closes (finishReason : FinishReason) (base : Nat) {toolCall : ToolCall} (index : Nat)
    (h : Opened (about x.events (.functionCall index)) (cStr toolCall.arguments)) :
    LifeCycle (about (x.closeToolCall finishReason base toolCall index).events (.functionCall index)) := by
  simp only [closeToolCall, about_emplace, ↓reduceIte]
  exact (h.closing.append rfl (by simp) rfl).finish rfl rfl

theorem Numbered.closeToolCall (h : Numbered x) (finishReason : FinishReason) (base : Nat) (toolCall : ToolCall)
    (index : Nat) : Numbered (x.closeToolCall finishReason base toolCall index) :=
  (h.emplace ..).emplace ..

/-- The loop over the calls from the one at `n` on. -/
theorem closeToolCalls_loop (finishReason : FinishReason) (base : Nat) (toolCalls : List ToolCall) (n : Nat)
    (hnumbered : Numbered x)
    (hcalls : ∀ i toolCall, toolCalls[i]? = some toolCall →
      Opened (about x.events (.functionCall (n + i))) (cStr toolCall.arguments)) :
    ∃ y number, (toolCalls.zipIdx n).foldl (fun (y : Stream) (toolCall, index) =>
        y.closeToolCall finishReason base toolCall index) x = y ∧
      Numbered y ∧ y.responsesState = { x.responsesState with sequenceNumber := number } ∧
      (∀ k, (∀ i < toolCalls.length, k ≠ .functionCall (n + i)) → about y.events k = about x.events k) ∧
      ∀ i < toolCalls.length, LifeCycle (about y.events (.functionCall (n + i))) := by
  induction toolCalls generalizing x n with
  | nil => exact ⟨x, _, rfl, hnumbered, rfl, fun _ _ => rfl, by simp⟩
  | cons toolCall toolCalls ih =>
    have hother : ∀ i, Item.functionCall (n + 1 + i) ≠ .functionCall n := by
      intro i heq
      have hindex := Item.functionCall.inj heq
      omega
    obtain ⟨y, number, hfold, hy, hstate, habout, hlife⟩ := ih (x := x.closeToolCall finishReason base toolCall n) (n + 1)
      (hnumbered.closeToolCall ..) (by
        intro i c hc
        rw [closeToolCall_about _ _ _ _ (hother i)]
        have hopened := hcalls (i + 1) c hc
        rwa [Nat.add_assoc, Nat.add_comm 1 i])
    refine ⟨y, number, hfold, hy, hstate, ?_, ?_⟩
    · intro k hk
      rw [habout k, closeToolCall_about]
      · exact hk 0 (by simp)
      · intro i hi
        have hne := hk (i + 1) (by simpa using hi)
        rwa [Nat.add_assoc, Nat.add_comm 1 i]
    · intro i hi
      cases i with
      | zero =>
        rw [habout]
        · exact closeToolCall_closes _ _ _ (hcalls 0 toolCall rfl)
        · intro j _
          exact (hother j).symm
      | succ i =>
        have hdone := hlife i (by simpa using hi)
        rwa [Nat.add_assoc, Nat.add_comm 1 i] at hdone

/-- A generation that has ended. -/
structure Ended (x : Stream) : Prop where
  numbered : x.events.map (·.sequenceNumber) = List.range' 1 x.events.length
  items : ∀ item, about x.events item = [] ∨ LifeCycle (about x.events item)
  last : ∃ e, x.events.getLast? = some e ∧ (e.type = .completed ∨ e.type = .incomplete)

theorem closeMessage_ends (hnumbered : Numbered x) (hstage : MessageStage x.responsesState.messageInitialized
      x.responsesState.outputText (about x.events .message)) (finishReason : FinishReason) :
    Numbered (x.closeMessage finishReason) ∧
      (∀ k, k ≠ .message → about (x.closeMessage finishReason).events k = about x.events k) ∧
      (about (x.closeMessage finishReason).events .message = [] ∨
        LifeCycle (about (x.closeMessage finishReason).events .message)) := by
  unfold Stream.closeMessage
  split
  next =>
    obtain ⟨n, hstate⟩ := openMessage_responsesState (x := x) (x.baseIdx + x.responsesState.toolCalls.length)
    refine ⟨?_, ?_, Or.inr ?_⟩
    · exact (((hnumbered.openMessage _).emplace ..).emplace ..).emplace ..
    · intro k hk
      simp [messageText, hk.symm, about_openMessage _ hk]
    · have hopened := opened_openMessage hstage (x.baseIdx + x.responsesState.toolCalls.length)
      simp only [messageText, about_emplace, emplace_responsesState, hstate, ↓reduceIte]
      exact ((hopened.closing.append rfl (by simp) rfl).append rfl (by simp) rfl).finish rfl rfl
  next hsilent =>
    refine ⟨hnumbered, fun _ _ => rfl, Or.inl ?_⟩
    generalize about x.events .message = own at hstage ⊢
    cases hstage' : x.responsesState.messageInitialized <;> rw [hstage'] at hstage
    · generalize x.responsesState.outputText = before at hstage
      cases hstage
      rfl
    · cases hstage with
      | opened htext _ => simp_all

theorem Standing.finish (h : Standing x named) (hnamed : ∀ i < x.responsesState.toolCalls.length, i ∈ named)
    (finishReason : FinishReason) : Ended (x.finish finishReason) := by
  obtain ⟨hclosed, hflags⟩ := h.closeReasoning
  rw [← closeReasoning_toolCalls] at hnamed
  unfold Stream.finish
  generalize x.closeReasoning = y at hclosed hflags hnamed
  have hreasoning : about y.events .reasoning = [] ∨ LifeCycle (about y.events .reasoning) := by
    have hstage := hclosed.reasoning
    rw [hflags] at hstage
    generalize about y.events .reasoning = own at hstage ⊢
    cases hi : y.responsesState.reasoningInitialized <;> rw [hi] at hstage
    · generalize y.responsesState.reasoningText = text at hstage
      cases hstage
      exact Or.inl rfl
    · cases hstage with
      | closed hown => exact Or.inr hown
  have hopened : ∀ i toolCall, y.responsesState.toolCalls[i]? = some toolCall →
      Opened (about y.events (.functionCall (0 + i))) (cStr toolCall.arguments) := by
    intro i toolCall hcall
    have hstage := hclosed.calls i
    have hm := hnamed i (List.getElem?_eq_some_iff.mp hcall).1
    simp only [CallStage, hm, ↓reduceIte] at hstage
    obtain ⟨c, hc, hopened⟩ := hstage
    cases hcall.symm.trans hc
    rwa [Nat.zero_add]
  have hunnamed : ∀ i, y.responsesState.toolCalls.length ≤ i → about y.events (.functionCall i) = [] := by
    intro i hi
    have hstage := hclosed.calls i
    unfold CallStage at hstage
    split at hstage
    next =>
      obtain ⟨c, hc, _⟩ := hstage
      have hlt := (List.getElem?_eq_some_iff.mp hc).1
      omega
    next => exact hstage
  obtain ⟨z, number, hfold, hnumbered, hstate, habout, hlife⟩ :=
    closeToolCalls_loop finishReason y.baseIdx y.responsesState.toolCalls 0 hclosed.numbered hopened
  have hcloseToolCalls : y.closeToolCalls finishReason = z := hfold
  rw [hcloseToolCalls]
  have hmessage := hclosed.message
  rw [← habout .message (by simp)] at hmessage
  obtain ⟨hdone, hother, hends⟩ := closeMessage_ends (x := z) hnumbered (by rw [hstate]; exact hmessage) finishReason
  refine ⟨?_, ?_, ?_⟩
  · exact (hdone.emplace ..).numbers
  · intro item
    simp only [serializeCompletedEvent, about_emplace, reduceCtorEq, ↓reduceIte, List.append_nil]
    cases item with
    | message => exact hends
    | reasoning =>
      rw [hother .reasoning (by simp), habout .reasoning (by simp)]
      exact hreasoning
    | functionCall i =>
      rw [hother _ (by simp)]
      by_cases hi : i < y.responsesState.toolCalls.length
      · have hdone := hlife i hi
        rw [Nat.zero_add] at hdone
        exact Or.inr hdone
      · left
        rw [habout]
        · exact hunnamed i (by omega)
        · intro j hj heq
          have hindex := Item.functionCall.inj heq
          omega
  · refine ⟨_, List.getLast?_concat, ?_⟩
    simp only
    split
    · exact Or.inr rfl
    · exact Or.inl rfl

end Stream

/-- The events of a generation are numbered without a gap, each item is added, told and done once, and the
response ends it, if reasoning does not come back after it was closed, texts do not go on behind a NUL, and the
indexes that name a call are `0, …, n - 1`, each once. -/
theorem items_live_once {deltas : List Delta} {last : Delta} {finishReason : FinishReason}
    (hfinish : finishReason ≠ .none) (hadmitted : Stream.AllAdmitted {} [] (deltas ++ [last]))
    (hnamed : ((deltas ++ [last]).flatMap Stream.namedBy).Perm
      (List.range ((deltas ++ [last]).flatMap Stream.namedBy).length)) :
    Stream.Ended (streamed deltas last finishReason) := by
  obtain ⟨y, named, hmem, hstanding, hrun⟩ := Stream.standing_initial.run hadmitted
  unfold streamed
  rw [hrun finishReason hfinish]
  apply hstanding.finish
  intro i hi
  obtain ⟨j, hj, hle⟩ := hstanding.covered i hi
  have hrange : ∀ k, k ∈ named ↔ k < ((deltas ++ [last]).flatMap Stream.namedBy).length := by
    intro k
    rw [hmem, hnamed.mem_iff]
    simp
  rw [hrange] at hj ⊢
  omega

/-- Reasoning, a call in two deltas, then content. -/
theorem items_live_once_mixed :
    Stream.Ended (streamed
      [.reasoning (bytes "a"), .reasoning (bytes "b"), .toolCall ⟨0, some (bytes "id"), some (bytes "f"), []⟩,
        .toolCall ⟨0, none, none, bytes "1"⟩]
      (.content (bytes "c")) .stop) := by
  apply items_live_once
  · decide
  · refine ⟨⟨rfl, ?_⟩, ⟨rfl, ?_⟩, ?_, ?_, ?_, trivial⟩
    · exact Or.inl (by decide)
    · exact Or.inl (by decide)
    · exact ⟨by decide, by decide, by decide, fun hname => by cases hname⟩
    · refine ⟨by decide, by decide, by decide, fun _ toolCall hcall => ?_⟩
      have hfirst : some (ToolCall.mk (bytes "id") (bytes "f") []) = some toolCall := hcall
      cases hfirst
      exact Or.inl (by decide)
    · exact Or.inl (by decide)
  · decide

/-- Reasoning that comes back after a tool call: its delta follows the end of its item. -/
theorem reasoning_outlives_item :
    ¬ Stream.Ended (streamed
      [.reasoning (bytes "a"), .toolCall ⟨0, some (bytes "id"), some (bytes "f"), []⟩] (.reasoning (bytes "b")) .stop) := by
  intro h
  have htype : (about (streamed [.reasoning (bytes "a"), .toolCall ⟨0, some (bytes "id"), some (bytes "f"), []⟩]
      (.reasoning (bytes "b")) .stop).events .reasoning).getLast?.map (·.type) = some .reasoningSummaryTextDelta := by
    decide
  rcases h.items .reasoning with hnone | ⟨⟨added, middle, done, heq, _, hdone, _⟩, _⟩
  · rw [hnone] at htype
    cases htype
  · rw [heq, ← List.cons_append, List.getLast?_concat, Option.map_some, hdone] at htype
    cases htype

end ModelServer.OpenAIResponsesHandler
