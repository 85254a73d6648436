import ModelServer.ResponsesLifeCycle

namespace ModelServer.OpenAIResponsesHandler

/-- The `output_index` of an event. -/
def Event.outputIndex (e : Event) : Option Nat :=
  match e.payload with
  | .text outputIndex _ _ => some outputIndex
  | .outputItem outputIndex _ => some outputIndex
  | _ => none

/-- The output array of the response in an event. -/
def Event.output (e : Event) : List OutputItem :=
  match e.payload with
  | .response _ output => output
  | _ => []

def isReasoning : Delta → Bool
  | .reasoning _ => true
  | _ => false

namespace Stream

/-- The index of an event's item, when the flags stand so: reasoning first, then the calls or the message. -/
def Sited (initialized : Bool) (calls : Nat) (spoken : Bool) (e : Event) : Prop :=
  match e.item with
  | none => True
  | some .reasoning => e.outputIndex = some 0 ∧ initialized = true
  | some (.functionCall i) => e.outputIndex = some (initialized.toNat + i) ∧ i < calls
  | some .message => e.outputIndex = some initialized.toNat ∧ spoken = true

def AllSited (initialized : Bool) (calls : Nat) (spoken : Bool) (events : List Event) : Prop :=
  ∀ e ∈ events, Sited initialized calls spoken e

variable {x : Stream} {initialized spoken : Bool} {calls : Nat}

theorem AllSited.emplace (h : AllSited initialized calls spoken x.events)
    {type : EventType} {item : Option Item} {payload : Payload}
    (hnew : ∀ n, Sited initialized calls spoken ⟨type, n, item, payload⟩) :
    AllSited initialized calls spoken (x.emplace type item payload).events := by
  intro e hm
  rcases List.mem_append.mp hm with hm | hm
  · exact h e hm
  · rw [List.mem_singleton.mp hm]
    exact hnew _

/-- More calls, and a message or a call where there was none. -/
theorem AllSited.mono {events : List Event} (h : AllSited initialized calls spoken events) {more : Nat} {said : Bool}
    (hcalls : calls ≤ more) (hsaid : spoken = true → said = true) : AllSited initialized more said events := by
  intro e hm
  have hsited := h e hm
  unfold Sited at hsited ⊢
  split
  next => trivial
  next hitem => simpa [hitem] using hsited
  next i hitem =>
    rw [hitem] at hsited
    exact ⟨hsited.1, by omega⟩
  next hitem =>
    rw [hitem] at hsited
    exact ⟨hsited.1, hsaid hsited.2⟩

/-- Nothing but reasoning has been told: the first reasoning moves no index. -/
theorem AllSited.initialize {events : List Event} (h : AllSited initialized 0 false events) :
    AllSited true 0 false events := by
  intro e hm
  have hsited := h e hm
  unfold Sited at hsited ⊢
  split
  next => trivial
  next hitem =>
    rw [hitem] at hsited
    exact ⟨hsited.1, rfl⟩
  next i hitem =>
    rw [hitem] at hsited
    omega
  next hitem =>
    rw [hitem] at hsited
    simp at hsited

/-- What the state has kept of the deltas, and where the items stand. -/
structure Told (x : Stream) (before : List Delta) : Prop where
  outputText : x.responsesState.outputText = contentText before
  reasoningText : x.responsesState.reasoningText = ModelServer.reasoningText before
  initialized : x.responsesState.reasoningInitialized = before.any isReasoning
  calls : x.responsesState.toolCalls = [] ↔ before.flatMap namedBy = []
  sited : AllSited x.responsesState.reasoningInitialized x.responsesState.toolCalls.length
    (!x.responsesState.outputText.isEmpty) x.events

theorem told_initial : Told {} [] := by
  refine ⟨rfl, rfl, rfl, by simp, ?_⟩
  intro e hm
  cases hm

theorem baseIdx_eq : x.baseIdx = x.responsesState.reasoningInitialized.toNat := by
  unfold baseIdx
  cases x.responsesState.reasoningInitialized <;> rfl

theorem Told.serializeStreamingCreatedEvent {before : List Delta} (h : Told x before) :
    Told x.serializeStreamingCreatedEvent before := by
  unfold Stream.serializeStreamingCreatedEvent
  split
  next => exact h
  next =>
    refine ⟨h.outputText, h.reasoningText, h.initialized, h.calls, ?_⟩
    apply AllSited.emplace h.sited
    intro n
    trivial

theorem Told.serializeStreamingInProgressEvent {before : List Delta} (h : Told x before) :
    Told x.serializeStreamingInProgressEvent before := by
  unfold Stream.serializeStreamingInProgressEvent
  split
  next => exact h
  next =>
    refine ⟨h.outputText, h.reasoningText, h.initialized, h.calls, ?_⟩
    apply AllSited.emplace h.sited
    intro n
    trivial

theorem closeReasoning_responsesState : ∃ completed n, x.closeReasoning.responsesState =
    { x.responsesState with reasoningCompleted := completed, sequenceNumber := n } := by
  unfold closeReasoning
  split
  next => exact ⟨_, _, rfl⟩
  next => exact ⟨_, _, rfl⟩

theorem AllSited.closeReasoning (h : AllSited initialized calls spoken x.events)
    (hinitialized : x.responsesState.reasoningInitialized = true → initialized = true) :
    AllSited initialized calls spoken x.closeReasoning.events := by
  unfold Stream.closeReasoning
  split
  next hopen =>
    have hinitialized : initialized = true := by
      apply hinitialized
      simp_all
    have hsited : ∀ type n, Sited initialized calls spoken
        ⟨type, n, some .reasoning, .text 0 REASONING_ITEM_ID (cStr x.responsesState.reasoningText)⟩ :=
      fun _ _ => ⟨rfl, hinitialized⟩
    apply AllSited.emplace
    · apply AllSited.emplace
      · exact AllSited.emplace h (hsited _)
      · exact hsited _
    · exact fun _ => ⟨rfl, hinitialized⟩
  next => exact h

theorem AllSited.openMessage (h : AllSited initialized calls true x.events) :
    AllSited initialized calls true (x.openMessage initialized.toNat).events := by
  unfold Stream.openMessage
  split
  next => exact h
  next =>
    apply AllSited.emplace
    · exact AllSited.emplace h fun _ => ⟨rfl, rfl⟩
    · exact fun _ => ⟨rfl, rfl⟩

theorem Told.appendReasoningDeltaEvents {before : List Delta} (h : Told x before) (text : Str)
    (hfirst : x.responsesState.reasoningInitialized = true ∨
      (x.responsesState.outputText = [] ∧ x.responsesState.toolCalls = [])) :
    Told (x.appendReasoningDeltaEvents text) (before ++ [.reasoning text]) := by
  have hsited : AllSited true x.responsesState.toolCalls.length (!x.responsesState.outputText.isEmpty) x.events := by
    rcases hfirst with hinitialized | ⟨htext, hcalls⟩
    · have hsited := h.sited
      rwa [hinitialized] at hsited
    · have hsited := h.sited
      rw [htext, hcalls] at hsited ⊢
      exact hsited.initialize
  unfold Stream.appendReasoningDeltaEvents
  split
  next hinitialized =>
    refine ⟨?_, ?_, ?_, ?_, ?_⟩
    · simpa [Stream.reasoningText, contentText] using h.outputText
    · simpa [Stream.reasoningText, ModelServer.reasoningText] using h.reasoningText
    · simp [Stream.reasoningText, hinitialized, isReasoning]
    · simpa [Stream.reasoningText, namedBy] using h.calls
    · simp only [Stream.reasoningText, emplace_responsesState, hinitialized]
      exact AllSited.emplace hsited fun _ => ⟨rfl, rfl⟩
  next hinitialized =>
    refine ⟨?_, ?_, ?_, ?_, ?_⟩
    · simpa [Stream.reasoningText, contentText] using h.outputText
    · simpa [Stream.reasoningText, ModelServer.reasoningText] using h.reasoningText
    · simp [Stream.reasoningText, isReasoning]
    · simpa [Stream.reasoningText, namedBy] using h.calls
    · simp only [Stream.reasoningText, emplace_responsesState]
      apply AllSited.emplace
      · apply AllSited.emplace
        · exact AllSited.emplace hsited fun _ => ⟨rfl, rfl⟩
        · exact fun _ => ⟨rfl, rfl⟩
      · exact fun _ => ⟨rfl, rfl⟩

theorem Told.appendContentDeltaEvents {before : List Delta} (h : Told x before) (text : Str) :
    Told (x.appendContentDeltaEvents text) (before ++ [.content text]) := by
  unfold Stream.appendContentDeltaEvents
  split
  next htext =>
    have htext : text = [] := by simpa using htext
    subst htext
    refine ⟨?_, ?_, ?_, ?_, h.sited⟩
    · simpa [contentText] using h.outputText
    · simpa [ModelServer.reasoningText] using h.reasoningText
    · simpa [isReasoning] using h.initialized
    · simpa [namedBy] using h.calls
  next htext =>
    obtain ⟨completed, n, hclosed⟩ := closeReasoning_responsesState (x := x)
    have hbase : x.closeReasoning.baseIdx = x.responsesState.reasoningInitialized.toNat := by
      rw [baseIdx_eq, hclosed]
    obtain ⟨m, hopened⟩ := openMessage_responsesState (x := x.closeReasoning)
      x.responsesState.reasoningInitialized.toNat
    simp only [hbase]
    refine ⟨?_, ?_, ?_, ?_, ?_⟩
    · simp [messageText, hopened, hclosed, contentText, h.outputText]
    · simpa [messageText, hopened, hclosed, ModelServer.reasoningText] using h.reasoningText
    · simpa [messageText, hopened, hclosed, isReasoning] using h.initialized
    · simpa [messageText, hopened, hclosed, namedBy] using h.calls
    · have hsited : AllSited x.responsesState.reasoningInitialized x.responsesState.toolCalls.length true x.events :=
        h.sited.mono (le_refl _) (fun _ => rfl)
      have hsaid : (!(x.responsesState.outputText ++ text).isEmpty) = true := by
        simp_all
      simp only [messageText, emplace_responsesState, hopened, hclosed, hsaid]
      apply AllSited.emplace
      · exact AllSited.openMessage (AllSited.closeReasoning hsited id)
      · exact fun _ => ⟨rfl, rfl⟩

theorem setToolCall_ne_nil (toolCalls : List ToolCall) (index : Nat) (toolCall : ToolCall) :
    setToolCall toolCalls index toolCall ≠ [] := by
  intro h
  have hlength := congrArg List.length h
  rw [length_setToolCall] at hlength
  simp at hlength

/-- The arguments of a delta, when the call is there. -/
theorem AllSited.addArguments {index : Nat} (h : AllSited initialized calls spoken x.events) (hindex : index < calls)
    (id arguments : Str) :
    AllSited initialized calls spoken (x.emplace .functionCallArgumentsDelta (some (.functionCall index))
      (.text (initialized.toNat + index) id arguments)).events :=
  AllSited.emplace h fun _ => ⟨rfl, hindex⟩

theorem Told.appendToolCallDeltaEvents {before : List Delta} (h : Told x before) (d : ToolCallDelta) :
    Told (x.appendToolCallDeltaEvents d) (before ++ [.toolCall d]) := by
  obtain ⟨completed, n, hclosed⟩ := closeReasoning_responsesState (x := x)
  have hbase : x.closeReasoning.baseIdx = x.responsesState.reasoningInitialized.toNat := by
    rw [baseIdx_eq, hclosed]
  have hsited := AllSited.closeReasoning h.sited id
  have hcontent : contentText (before ++ [.toolCall d]) = contentText before := by simp [contentText]
  have hreasoning : ModelServer.reasoningText (before ++ [.toolCall d]) = ModelServer.reasoningText before := by
    simp [ModelServer.reasoningText]
  have hany : (before ++ [Delta.toolCall d]).any isReasoning = before.any isReasoning := by
    simp [isReasoning]
  unfold Stream.appendToolCallDeltaEvents
  simp only [hbase]
  cases hname : d.name with
  | none =>
    have hnamed : (before ++ [Delta.toolCall d]).flatMap namedBy = before.flatMap namedBy := by simp [namedBy, hname]
    have hkept : Told x.closeReasoning (before ++ [.toolCall d]) := by
      refine ⟨?_, ?_, ?_, ?_, ?_⟩
      · rw [hclosed, hcontent]
        exact h.outputText
      · rw [hclosed, hreasoning]
        exact h.reasoningText
      · rw [hclosed, hany]
        exact h.initialized
      · rw [hclosed, hnamed]
        exact h.calls
      · rw [hclosed]
        exact hsited
    simp only
    split
    next => exact hkept
    next toolCall hcall =>
      split
      next => exact hkept
      next =>
        have hindex := (List.getElem?_eq_some_iff.mp hcall).1
        refine ⟨hkept.outputText, hkept.reasoningText, hkept.initialized, ?_, ?_⟩
        · have hcalls := hkept.calls
          simpa using hcalls
        · simp only [emplace_responsesState, List.length_set, hclosed] at hindex ⊢
          apply AllSited.addArguments
          · exact hsited
          · exact hindex
  | some name =>
    have hnamed : (before ++ [Delta.toolCall d]).flatMap namedBy ≠ [] := by simp [namedBy, hname]
    have hmore : AllSited x.responsesState.reasoningInitialized
        (max x.responsesState.toolCalls.length (d.index.toNat + 1)) (!x.responsesState.outputText.isEmpty)
        x.closeReasoning.events := hsited.mono (le_max_left _ _) id
    have hindex : d.index.toNat < max x.responsesState.toolCalls.length (d.index.toNat + 1) := by omega
    simp only
    split
    next hcall =>
      simp [setToolCall_getElem?] at hcall
    next toolCall hcall =>
      split
      next =>
        refine ⟨?_, ?_, ?_, ?_, ?_⟩
        · rw [hcontent]
          simpa [hclosed] using h.outputText
        · rw [hreasoning]
          simpa [hclosed] using h.reasoningText
        · rw [hany]
          simpa [hclosed] using h.initialized
        · simpa [setToolCall_ne_nil] using hnamed
        · simp only [emplace_responsesState, length_setToolCall, hclosed]
          apply AllSited.emplace
          · exact hmore
          · exact fun _ => ⟨rfl, hindex⟩
      next =>
        refine ⟨?_, ?_, ?_, ?_, ?_⟩
        · rw [hcontent]
          simpa [hclosed] using h.outputText
        · rw [hreasoning]
          simpa [hclosed] using h.reasoningText
        · rw [hany]
          simpa [hclosed] using h.initialized
        · simpa [setToolCall_ne_nil] using hnamed
        · simp only [emplace_responsesState, List.length_set, length_setToolCall, hclosed]
          apply AllSited.addArguments
          · apply AllSited.emplace
            · exact hmore
            · exact fun _ => ⟨rfl, hindex⟩
          · exact hindex

theorem Told.chunk {before : List Delta} (h : Told x before) (delta : Delta)
    (hfirst : isReasoning delta = true →
      before.any isReasoning = true ∨ (contentText before = [] ∧ before.flatMap namedBy = [])) :
    Told (x.serializeStreamingCreatedEvent.serializeStreamingInProgressEvent.appendDeltaEvents delta)
      (before ++ [delta]) := by
  have hopening := h.serializeStreamingCreatedEvent.serializeStreamingInProgressEvent
  generalize x.serializeStreamingCreatedEvent.serializeStreamingInProgressEvent = y at hopening
  cases delta with
  | audio base64 =>
    refine ⟨?_, ?_, ?_, ?_, ?_⟩
    · simpa [Stream.appendDeltaEvents, appendAudioDeltaEvents, contentText] using hopening.outputText
    · simpa [Stream.appendDeltaEvents, appendAudioDeltaEvents, ModelServer.reasoningText] using hopening.reasoningText
    · simpa [Stream.appendDeltaEvents, appendAudioDeltaEvents, isReasoning] using hopening.initialized
    · simpa [Stream.appendDeltaEvents, appendAudioDeltaEvents, namedBy] using hopening.calls
    · exact AllSited.emplace hopening.sited fun _ => trivial
  | finish =>
    refine ⟨?_, ?_, ?_, ?_, hopening.sited⟩
    · simpa [Stream.appendDeltaEvents, contentText] using hopening.outputText
    · simpa [Stream.appendDeltaEvents, ModelServer.reasoningText] using hopening.reasoningText
    · simpa [Stream.appendDeltaEvents, isReasoning] using hopening.initialized
    · simpa [Stream.appendDeltaEvents, namedBy] using hopening.calls
  | reasoning text =>
    apply hopening.appendReasoningDeltaEvents
    rw [hopening.initialized, hopening.outputText, hopening.calls]
    exact hfirst rfl
  | content text => exact hopening.appendContentDeltaEvents text
  | toolCall d => exact hopening.appendToolCallDeltaEvents d

end Stream

/-- Reasoning, when there is any, is first and says something, and after it come either calls or content. -/
structure Orderly (deltas : List Delta) : Prop where
  first : ∀ before text after, deltas = before ++ .reasoning text :: after →
    before.any isReasoning = true ∨ (contentText before = [] ∧ before.flatMap Stream.namedBy = [])
  reasoned : deltas.any isReasoning = true → reasoningText deltas ≠ []
  one : contentText deltas ≠ [] ↔ deltas.flatMap Stream.namedBy = []

namespace Stream

variable {x : Stream}

theorem Told.run {before deltas : List Delta} {last : Delta} (h : Told x before)
    (hfirst : ∀ earlier text after, before ++ (deltas ++ [last]) = earlier ++ .reasoning text :: after →
      earlier.any isReasoning = true ∨ (contentText earlier = [] ∧ earlier.flatMap namedBy = [])) :
    ∃ y, Told y (before ++ (deltas ++ [last])) ∧ ∀ finishReason, finishReason ≠ .none →
      (deltas.foldl (fun (x : Stream) delta => x.serializeStreamingChunk delta .none) x).serializeStreamingChunk
        last finishReason = y.finish finishReason := by
  induction deltas generalizing x before with
  | nil =>
    refine ⟨_, h.chunk last ?_, ?_⟩
    · intro hlast
      cases last with
      | reasoning text => exact hfirst before text [] rfl
      | _ => cases hlast
    · intro finishReason hreason
      simp [Stream.serializeStreamingChunk, hreason]
  | cons delta deltas ih =>
    have hdelta : Told (x.serializeStreamingChunk delta .none) (before ++ [delta]) := by
      apply h.chunk delta
      intro hreasoning
      cases delta with
      | reasoning text => exact hfirst before text (deltas ++ [last]) rfl
      | _ => cases hreasoning
    obtain ⟨y, hy, hrun⟩ := ih hdelta (by
      intro earlier text after heq
      rw [List.append_assoc] at heq
      exact hfirst earlier text after heq)
    refine ⟨y, ?_, hrun⟩
    rwa [List.append_assoc] at hy

variable {initialized spoken : Bool} {calls : Nat}

theorem AllSited.closeToolCall (h : AllSited initialized calls spoken x.events) (finishReason : FinishReason)
    (toolCall : ToolCall) {index : Nat} (hindex : index < calls) :
    AllSited initialized calls spoken
      (x.closeToolCall finishReason initialized.toNat toolCall index).events := by
  unfold Stream.closeToolCall
  apply AllSited.emplace
  · exact AllSited.emplace h fun _ => ⟨rfl, hindex⟩
  · exact fun _ => ⟨rfl, hindex⟩

theorem AllSited.closeToolCalls_loop (finishReason : FinishReason) (toolCalls : List ToolCall) (n : Nat)
    (h : AllSited initialized calls spoken x.events) (hcalls : n + toolCalls.length ≤ calls) :
    ∃ y number, (toolCalls.zipIdx n).foldl (fun (y : Stream) (toolCall, index) =>
        y.closeToolCall finishReason initialized.toNat toolCall index) x = y ∧
      y.responsesState = { x.responsesState with sequenceNumber := number } ∧
      AllSited initialized calls spoken y.events := by
  induction toolCalls generalizing x n with
  | nil => exact ⟨x, _, rfl, rfl, h⟩
  | cons toolCall toolCalls ih =>
    have hlength : n + 1 + toolCalls.length ≤ calls := by
      rw [List.length_cons] at hcalls
      omega
    exact ih (n + 1) (h.closeToolCall finishReason toolCall (by omega)) hlength

/-- The items of the output array. -/
def outputItems (s : ResponsesStreamingState) : List Item :=
  (if s.reasoningText.isEmpty then [] else [Item.reasoning]) ++
  (List.range s.toolCalls.length).map Item.functionCall ++
  (if s.outputText.isEmpty then [] else [Item.message])

theorem output_items (s : ResponsesStreamingState) (status : Status) :
    (output s status s.outputText).map OutputItem.item = outputItems s := by
  have hcalls : ∀ (toolCalls : List ToolCall), toolCalls.zipIdx.map (fun p => Item.functionCall p.2) =
      (List.range toolCalls.length).map .functionCall := by
    intro toolCalls
    rw [List.zipIdx_eq_zip_range', ← List.range_eq_range']
    rw [show (fun p : ToolCall × Nat => Item.functionCall p.2) = Item.functionCall ∘ Prod.snd from rfl,
      ← List.map_map, List.map_snd_zip]
    simp
  unfold output outputItems
  rw [List.map_append, List.map_append, List.map_map]
  congr 1
  · congr 1
    · split <;> rfl
    · exact hcalls _
  · split <;> rfl

theorem outputItems_nodup (s : ResponsesStreamingState) : (outputItems s).Nodup := by
  unfold outputItems
  have hcalls : ((List.range s.toolCalls.length).map Item.functionCall).Nodup :=
    List.Pairwise.map _ (fun _ _ hne heq => hne (Item.functionCall.inj heq)) List.nodup_range
  split <;> split <;> simp [List.nodup_append, hcalls]

/-- An event stands where its item stands in the output array. -/
theorem Sited.position {s : ResponsesStreamingState} {e : Event} {item : Item}
    (h : Sited s.reasoningInitialized s.toolCalls.length (!s.outputText.isEmpty) e) (hitem : e.item = some item)
    (hreasoned : s.reasoningInitialized = true ↔ s.reasoningText ≠ [])
    (hone : s.outputText ≠ [] → s.toolCalls = []) :
    ∃ k, e.outputIndex = some k ∧ (outputItems s)[k]? = some item := by
  have hbase : ((if s.reasoningText.isEmpty then [] else [Item.reasoning]) : List Item).length =
      s.reasoningInitialized.toNat := by
    cases htext : s.reasoningText <;> cases hi : s.reasoningInitialized <;> simp_all
  unfold Sited at h
  rw [hitem] at h
  unfold outputItems
  cases item with
  | reasoning =>
    have htext := hreasoned.mp h.2
    exact ⟨0, h.1, by simp [htext]⟩
  | functionCall i =>
    refine ⟨_, h.1, ?_⟩
    rw [List.append_assoc, ← hbase, List.getElem?_append_right (by omega), Nat.add_sub_cancel_left,
      List.getElem?_append_left (by simpa using h.2)]
    simp [h.2]
  | message =>
    have htext : s.outputText ≠ [] := by simpa using h.2
    refine ⟨_, h.1, ?_⟩
    rw [← hbase, hone htext]
    simp [htext]

theorem closeMessage_responsesState (finishReason : FinishReason) : ∃ opened n,
    (x.closeMessage finishReason).responsesState =
      { x.responsesState with messageInitialized := opened, sequenceNumber := n } := by
  unfold closeMessage
  split
  next =>
    obtain ⟨m, hopened⟩ := openMessage_responsesState (x := x) (x.baseIdx + x.responsesState.toolCalls.length)
    refine ⟨true, m + 1 + 1 + 1, ?_⟩
    simp [messageText, hopened]
  next => exact ⟨_, _, rfl⟩

theorem Told.finish {deltas : List Delta} (h : Told x deltas) (horderly : Orderly deltas)
    (finishReason : FinishReason) :
    ∃ s status last, (x.finish finishReason).events.getLast? = some last ∧
      last.output = output s status s.outputText ∧
      (s.reasoningInitialized = true ↔ s.reasoningText ≠ []) ∧ (s.outputText ≠ [] → s.toolCalls = []) ∧
      AllSited s.reasoningInitialized s.toolCalls.length (!s.outputText.isEmpty) (x.finish finishReason).events := by
  have hreasoned : x.responsesState.reasoningInitialized = true ↔ x.responsesState.reasoningText ≠ [] := by
    rw [h.initialized, h.reasoningText]
    refine ⟨horderly.reasoned, ?_⟩
    intro htext
    by_contra hnone
    apply htext
    have hall : ∀ delta ∈ deltas, isReasoning delta = false := by simpa using hnone
    clear h horderly htext hnone
    induction deltas with
    | nil => rfl
    | cons delta deltas ih =>
      have hdelta := hall delta List.mem_cons_self
      have hrest := ih fun delta hm => hall delta (List.mem_cons_of_mem _ hm)
      cases delta with
      | reasoning text => cases hdelta
      | _ => exact hrest
  have hone : x.responsesState.outputText ≠ [] ↔ x.responsesState.toolCalls = [] := by
    rw [h.outputText, h.calls]
    exact horderly.one
  obtain ⟨completed, n, hclosed⟩ := closeReasoning_responsesState (x := x)
  have hbase : x.closeReasoning.baseIdx = x.responsesState.reasoningInitialized.toNat := by
    rw [baseIdx_eq, hclosed]
  have hsited := AllSited.closeReasoning h.sited id
  obtain ⟨y, number, hfold, hstate, hcalls⟩ :=
    AllSited.closeToolCalls_loop finishReason x.closeReasoning.responsesState.toolCalls 0 hsited
      (by simp [closeReasoning_toolCalls])
  have hcloseToolCalls : x.closeReasoning.closeToolCalls finishReason = y := by
    unfold closeToolCalls
    rw [hbase]
    exact hfold
  have hybase : y.baseIdx = x.responsesState.reasoningInitialized.toNat := by
    rw [baseIdx_eq, hstate, hclosed]
  unfold Stream.finish
  rw [hcloseToolCalls]
  refine ⟨x.responsesState, itemStatus finishReason, _, List.getLast?_concat, ?_, hreasoned, hone.mp, ?_⟩
  · show output (y.closeMessage finishReason).responsesState _ (y.closeMessage finishReason).responsesState.outputText = _
    obtain ⟨opened, m, hmessage⟩ := closeMessage_responsesState (x := y) finishReason
    rw [hmessage, hstate, hclosed]
    rfl
  · apply AllSited.emplace
    · unfold closeMessage
      split
      next hmessage =>
        have hnocalls : x.responsesState.toolCalls = [] := by
          by_contra hne
          have htext := fun ht => hne (hone.mp ht)
          simp_all
        have hspoken : (!x.responsesState.outputText.isEmpty) = true := by
          have htext := hone.mpr hnocalls
          simpa using htext
        have hlength : y.responsesState.toolCalls.length = 0 := by
          rw [hstate, hclosed]
          simp [hnocalls]
        rw [hspoken] at hcalls ⊢
        simp only [hybase, hlength, Nat.add_zero]
        apply AllSited.emplace
        · apply AllSited.emplace
          · apply AllSited.emplace
            · exact hcalls.openMessage
            · exact fun _ => ⟨rfl, rfl⟩
          · exact fun _ => ⟨rfl, rfl⟩
        · exact fun _ => ⟨rfl, rfl⟩
      next => exact hcalls
    · exact fun _ => trivial

/-- An item's events have one index, another item's have another, and it is the item's place in the output. -/
structure Identified (x : Stream) (output : List OutputItem) : Prop where
  same : ∀ e ∈ x.events, ∀ e' ∈ x.events, ∀ item, e.item = some item → e'.item = some item →
    e.outputIndex = e'.outputIndex
  distinct : ∀ e ∈ x.events, ∀ e' ∈ x.events, ∀ item item', e.item = some item → e'.item = some item' →
    item ≠ item' → e.outputIndex ≠ e'.outputIndex
  position : ∀ e ∈ x.events, ∀ item, e.item = some item →
    ∃ k outputItem, e.outputIndex = some k ∧ output[k]? = some outputItem ∧ outputItem.item = item

end Stream

end ModelServer.OpenAIResponsesHandler
