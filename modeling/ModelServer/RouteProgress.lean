import Mathlib.Data.Prod.Lex
import ModelServer.Gemma4Progress
import ModelServer.Gemma4Route
import ModelServer.Qwen3Route
import ModelServer.TextStreamerCompletion

namespace ModelServer

namespace OutputParser

section Weight

variable {τ ρ κ : Type} {o : OutputParser τ ρ κ} {s t : State τ ρ κ}

/-- What a drain has before it in the router: the buffer, and the call of a thought that has just been closed. -/
def State.weight (s : State τ ρ κ) : Nat := 2 * s.buffer.length + if s.pendingGemma4ToolHandoff then 0 else 1

/-- A call that is handed over is in the buffer. -/
def State.Handed (s : State τ ρ κ) : Prop := s.pendingGemma4ToolHandoff = true → s.buffer ≠ []

/-- A delta makes the state lighter. -/
def Lightens (s : State τ ρ κ) (result : Option Delta × State τ ρ κ) : Prop :=
  result.2.Handed ∧ (result.1 ≠ none → result.2.weight < s.weight)

theorem splitAtEnd_lt {buffer : Str} (endTags : List Str) (hb : buffer ≠ []) : (splitAtEnd buffer endTags).2.length < buffer.length := by
  have hpos := List.length_pos_iff.mpr hb
  rw [splitAtEnd]
  split
  next m hm =>
    have hbounds := findEarliestTag_bounds hm
    rw [List.length_drop]
    omega
  next => exact hpos

theorem Lightens.waits (hs : s.pendingGemma4ToolHandoff = false) : Lightens s (none, s) := by
  refine ⟨fun h => ?_, fun h => absurd rfl h⟩
  rw [hs] at h
  cases h

/-- Whatever is given of a shorter buffer. -/
theorem Lightens.shortens {result : Option Delta × State τ ρ κ} (hs : s.pendingGemma4ToolHandoff = false)
    (ht : result.2.pendingGemma4ToolHandoff = false) (hlt : result.1 ≠ none → result.2.buffer.length < s.buffer.length) : Lightens s result := by
  refine ⟨fun h => ?_, fun h => ?_⟩
  · rw [ht] at h
    cases h
  · have hless := hlt h
    simp only [State.weight, hs, ht]
    omega

theorem lightens_parseToolCallChunk (hs : s.pendingGemma4ToolHandoff = false) (hb : s.buffer ≠ []) (finishReason : FinishReason)
    (newPhase : ProcessingPhase) : Lightens s (o.parseToolCallChunk s finishReason newPhase) :=
  .shortens hs hs fun _ => splitAtEnd_lt o.toolParser.parsingConfig.endTags hb

theorem lightens_closeReasoningChunk (hs : s.pendingGemma4ToolHandoff = false) (hb : s.buffer ≠ []) (finishReason : FinishReason)
    (newPhase : ProcessingPhase) : Lightens s (o.closeReasoningChunk s finishReason newPhase) :=
  .shortens hs hs fun _ => splitAtEnd_lt o.reasoningParser.parsingConfig.endTags hb

theorem lightens_parseContentChunk (hs : s.pendingGemma4ToolHandoff = false) (hb : s.buffer ≠ []) (finishReason : FinishReason) :
    Lightens s (o.parseContentChunk s finishReason) := by
  have hpos := List.length_pos_iff.mpr hb
  rw [parseContentChunk_eq]
  dsimp only
  split
  next => exact .waits hs
  next content _ =>
    rw [State.release]
    split
    next => exact .shortens hs hs fun h => absurd rfl h
    next => exact .shortens hs hs fun _ => hpos
    next => exact .shortens hs hs fun _ => hpos

theorem handoffPosition_lt {position : Nat} (h : o.handoffPosition s = some position) : position < s.buffer.length := by
  unfold handoffPosition at h
  split at h
  next => cases h
  next toolStart htool =>
    have hbounds := findEarliestTag_bounds htool
    split at h
    next =>
      cases h
      omega
    next =>
      split at h
      next =>
        cases h
        omega
      next => cases h

theorem lightens_parseReasoningChunk (hs : s.pendingGemma4ToolHandoff = false) (hb : s.buffer ≠ []) (finishReason : FinishReason)
    (newPhase : ProcessingPhase) : Lightens s (o.parseReasoningChunk s finishReason newPhase) := by
  unfold parseReasoningChunk
  split
  next =>
    split
    next position hposition =>
      have hlt := handoffPosition_lt hposition
      have hrest : s.buffer.drop position ≠ [] := fun hnil => by
        have hlength := List.drop_eq_nil_iff.mp hnil
        omega
      dsimp only
      split
      next =>
        refine ⟨fun _ => hrest, fun _ => ?_⟩
        simp only [State.weight, hs, List.length_drop, if_true, Bool.false_eq_true, if_false]
        omega
      next =>
        refine .shortens hs rfl fun _ => ?_
        have hless := splitAtEnd_lt o.toolParser.parsingConfig.endTags hrest
        rw [List.length_drop] at hless
        show (splitAtEnd (s.buffer.drop position) o.toolParser.parsingConfig.endTags).2.length < _
        omega
    next =>
      split
      next => exact .waits hs
      next => exact lightens_closeReasoningChunk hs hb finishReason newPhase
  next => exact lightens_closeReasoningChunk hs hb finishReason newPhase

theorem Lightens.ite {c : Prop} [Decidable c] {result other : Option Delta × State τ ρ κ} (h : Lightens s result) (h' : Lightens s other) :
    Lightens s (if c then result else other) := by
  split
  next => exact h
  next => exact h'

theorem lightens_enterReasoning (hs : s.pendingGemma4ToolHandoff = false) (hb : s.buffer ≠ []) (finishReason : FinishReason) :
    Lightens s (o.enterReasoning s finishReason) := by
  unfold enterReasoning
  split
  next => exact lightens_parseReasoningChunk hs hb finishReason .unknown
  next => exact .ite (.waits hs) (lightens_parseReasoningChunk hs hb finishReason _)
  next => exact lightens_parseReasoningChunk hs hb finishReason _

theorem lightens_parseUnknown (hs : s.pendingGemma4ToolHandoff = false) (hb : s.buffer ≠ []) (finishReason : FinishReason) :
    Lightens s (o.parseUnknown s finishReason) := by
  unfold parseUnknown
  refine .ite (lightens_enterReasoning hs hb finishReason) (.ite (lightens_parseToolCallChunk hs hb finishReason _) ?_)
  exact .ite (lightens_parseContentChunk hs hb finishReason) (.waits hs)

theorem lightens_parseContent (hs : s.pendingGemma4ToolHandoff = false) (hb : s.buffer ≠ []) (finishReason : FinishReason) :
    Lightens s (o.parseContent s finishReason) := by
  unfold parseContent
  refine .ite (.ite (lightens_parseToolCallChunk hs hb finishReason _) ?_) (lightens_parseContentChunk hs hb finishReason)
  exact .ite (.waits hs) (lightens_parseContentChunk hs hb finishReason)

theorem lightens_parseProcessingTool (hs : s.pendingGemma4ToolHandoff = false) (hb : s.buffer ≠ []) (finishReason : FinishReason) :
    Lightens s (o.parseProcessingTool s finishReason) := by
  unfold parseProcessingTool
  refine .ite (.waits hs) ?_
  exact .ite (lightens_parseToolCallChunk hs hb finishReason _) (lightens_parseToolCallChunk hs hb finishReason _)

theorem lightens_parseAfterTool (hs : s.pendingGemma4ToolHandoff = false) (hb : s.buffer ≠ []) (finishReason : FinishReason) :
    Lightens s (o.parseAfterTool s finishReason) := by
  unfold parseAfterTool
  refine .ite (lightens_parseToolCallChunk hs hb finishReason _) (.ite ?_ ?_)
  · exact .ite (lightens_parseContentChunk hs hb finishReason) (.waits hs)
  · exact .ite (.waits hs) (lightens_parseToolCallChunk hs hb finishReason _)

theorem lightens_parseWaitingForTool (hs : s.pendingGemma4ToolHandoff = false) (hb : s.buffer ≠ []) (finishReason : FinishReason) :
    Lightens s (o.parseWaitingForTool s finishReason) := by
  have hafter := lightens_parseAfterTool (o := o) hs hb finishReason
  unfold parseWaitingForTool
  refine .ite ?_ hafter
  split
  next => exact lightens_enterReasoning (s := { s with
      gemma4ReasoningClosed := false, reasoningState := o.reasoningParser.resetState s.reasoningState }) hs hb finishReason
  next => exact .ite (.waits hs) hafter
  next => exact hafter

/-- A delta out of the buffer leaves less in it. -/
theorem lightens_dispatch (hs : s.pendingGemma4ToolHandoff = false) (hb : s.buffer ≠ []) (finishReason : FinishReason) :
    Lightens s (o.dispatch s finishReason) := by
  unfold dispatch
  split
  next => exact lightens_parseUnknown hs hb finishReason
  next =>
    split
    next => exact lightens_parseReasoningChunk hs hb finishReason _
    next => exact .ite (.waits hs) (lightens_parseReasoningChunk hs hb finishReason _)
    next => exact lightens_parseReasoningChunk hs hb finishReason _
  next => exact lightens_parseContent hs hb finishReason
  next => exact lightens_parseProcessingTool hs hb finishReason
  next => exact lightens_parseWaitingForTool hs hb finishReason

theorem lightens_drainCache (hs : s.pendingGemma4ToolHandoff = false) : Lightens s (o.drainCache s) := by
  unfold drainCache
  split
  next => exact .waits hs
  next hb =>
    have hbuffer : (s.receive [] s.toolsEnabledForChunk .none).buffer = s.buffer := List.append_nil s.buffer
    have hne : (s.receive [] s.toolsEnabledForChunk .none).buffer ≠ [] := by
      rw [hbuffer]
      simpa using hb
    have hweight : (s.receive [] s.toolsEnabledForChunk .none).weight = s.weight := by
      rw [State.weight, hbuffer, State.weight, hs]
      rfl
    rw [parseChunk, Lightens, ← hweight]
    exact lightens_dispatch rfl hne .none

/-- A drained delta makes the state lighter, or there is less to drain out of the tool parser. -/
theorem lightens_drainPendingDelta {μ : τ → Nat}
    (hμ : ∀ p d q, o.toolParser.drainPendingDelta p = (some d, q) → μ q < μ p) (hs : s.Handed) {d : Delta}
    (h : o.drainPendingDelta s = (some d, t)) :
    t.Handed ∧ Prod.Lex (· < ·) (· < ·) (t.weight, μ t.toolState) (s.weight, μ s.toolState) := by
  unfold drainPendingDelta at h
  split at h
  next hpending =>
    have hless := splitAtEnd_lt o.toolParser.parsingConfig.endTags (hs hpending)
    have hlight : (o.parseToolCallChunk { s with pendingGemma4ToolHandoff := false } .none).2.weight =
        2 * (splitAtEnd s.buffer o.toolParser.parsingConfig.endTags).2.length + 1 := rfl
    have hheavy : s.weight = 2 * s.buffer.length := by rw [State.weight, if_pos hpending, Nat.add_zero]
    rw [h] at hlight
    dsimp only at hlight
    refine ⟨?_, Prod.Lex.left _ _ (by omega)⟩
    cases congrArg Prod.snd h
    exact fun hhanded => Bool.noConfusion hhanded
  next hpending =>
    have hpending : s.pendingGemma4ToolHandoff = false := by simpa using hpending
    have hcache : ∀ toolState, o.drainCache { s with toolState := toolState } = (some d, t) →
        t.Handed ∧ Prod.Lex (· < ·) (· < ·) (t.weight, μ t.toolState) (s.weight, μ s.toolState) := by
      intro toolState hdrain
      have hlight := lightens_drainCache (o := o) (s := { s with toolState := toolState }) hpending
      rw [hdrain] at hlight
      exact ⟨hlight.1, Prod.Lex.left _ _ (hlight.2 (Option.some_ne_none d))⟩
    split at h
    next =>
      dsimp only at h
      split at h
      next hdrain =>
        cases h
        refine ⟨hs, Prod.Lex.right _ ?_⟩
        exact hμ _ _ _ (Prod.ext hdrain rfl)
      next => exact hcache _ h
    next => exact hcache s.toolState h

/-- Draining ends if the deltas of the tool parser come to an end. -/
theorem drains_end {μ : τ → Nat} (hμ : ∀ p d q, o.toolParser.drainPendingDelta p = (some d, q) → μ q < μ p) (s : State τ ρ κ) :
    ∃ ds t, Streaming.Drains o.drainPendingDelta s ds t := by
  have hhanded : ∀ s : State τ ρ κ, s.Handed → ∃ ds t, Streaming.Drains o.drainPendingDelta s ds t :=
    Streaming.drains_of_measure (Prod.lex ⟨_, Nat.lt_wfRel.wf⟩ ⟨_, Nat.lt_wfRel.wf⟩).wf
      (fun t : State τ ρ κ => (t.weight, μ t.toolState)) State.Handed fun _ _ _ hs h => lightens_drainPendingDelta hμ hs h
  by_cases hpending : s.pendingGemma4ToolHandoff = true
  · -- the call that is handed over is taken by the first drain
    cases hdrain : o.drainPendingDelta s with
    | mk delta t =>
      have ht : t.Handed := by
        rw [drainPendingDelta, if_pos hpending] at hdrain
        cases congrArg Prod.snd hdrain
        exact fun hhanded => Bool.noConfusion hhanded
      cases delta with
      | none => exact ⟨[], t, .done hdrain⟩
      | some d =>
        obtain ⟨ds, u, hrest⟩ := hhanded t ht
        exact ⟨d :: ds, u, .more hdrain hrest⟩
  · exact hhanded s fun h => absurd h hpending

end Weight

end OutputParser

namespace Gemma4ToolParser.Parser

variable (env : Environment) {p : Parser}

theorem skipRejected_left_le (h : p.skipRejected.1 = true) : p.skipRejected.2.left ≤ p.left := by
  rcases skipRejected_cases p with ⟨start, hs, _, hskip⟩ | ⟨envelopeEnd, he, _, hskip⟩ | ⟨_, _, hskip⟩
  · obtain ⟨hle, -⟩ := find_bounds (by decide) hs
    rw [hskip]
    simp only [resumeAt, left]
    omega
  · obtain ⟨hle, hlen⟩ := find_bounds (by decide) he
    have hpos : TOOL_CALL_END_TAG.length = 12 := rfl
    rw [hskip]
    exact (endCandidate_left hle (by omega)).le
  · rw [hskip] at h
    cases h

/-- Where content is next, nothing that has been read is read again. -/
theorem parseNewContent_content_left (h : (p.parseNewContent env).1 = true) (hc : (p.parseNewContent env).2.currentState = .content) :
    (p.parseNewContent env).2.left ≤ p.left := by
  unfold parseNewContent at *
  cases hs : p.currentState with
  | content =>
    simp only [hs] at h hc ⊢
    unfold parseInContentState at *
    split at h
    next =>
      split at h
      next => cases h
      next hpreamble => rw [if_neg hpreamble]
    next =>
      split at h
      next hbefore => rw [if_pos hbefore]
      next => cases h
  | toolCallStarted =>
    simp only [hs] at h hc ⊢
    cases henv : env.enforceToolRegistry with
    | false =>
      rcases parseInToolCallState_unchecked env henv p with ⟨argsPos, _, hstep⟩ | hstep
      · rw [hstep] at hc
        cases hc
      · rw [hstep] at h
        cases h
    | true =>
      rcases parseInToolCallState_cases env henv p with ⟨argsPos, _, hstep⟩ | ⟨_, _, hstep⟩ | ⟨_, _, hstep⟩
      · rw [hstep] at hc
        cases hc
      · rw [hstep] at h ⊢
        exact skipRejected_left_le h
      · rw [hstep] at h
        cases h
  | toolCallParameters =>
    simp only [hs] at h hc ⊢
    cases henv : env.enforceToolRegistry with
    | false =>
      rw [parseToolCallParametersState_unchecked env henv] at h ⊢
      exact (closeUnchecked_left env h).le
    | true =>
      cases hr : p.rejectedCandidate with
      | true =>
        rw [parseToolCallParametersState_rejected env henv hr] at h ⊢
        exact skipRejected_left_le h
      | false =>
        rcases parseToolCallParametersState_cases env henv hr with ⟨_, _, hstep⟩ | ⟨_, _, _, hstep⟩ | ⟨_, _, _, hstep⟩ | ⟨_, _, _, hstep⟩
        · rw [hstep] at hc
          cases hc
        · rw [hstep] at hc
          cases hc
        · rw [hstep] at h ⊢
          exact skipRejected_left_le h
        · rw [hstep] at h
          cases h
  | toolCallEnded =>
    simp only [hs] at h hc ⊢
    rcases parseInToolCallEndedState_cases env p with ⟨_, _, _, hstep⟩ | ⟨_, _, _, hstep⟩ | ⟨_, _, hstep⟩
    · rw [hstep] at h hc ⊢
      split at hc
      next => cases hc
      next hgap =>
        rw [if_neg hgap] at h ⊢
        exact skipRejected_left_le (p := p.reject) h
    · rw [hstep] at hc
      cases hc
    · rw [hstep] at h
      cases h
  | afterToolCall =>
    simp only [hs] at h
    cases h

theorem left_of_remaining {q : Parser} (h : q.remaining < p.remaining) : q.left ≤ p.left := by
  have hrank := rank_le p.currentState
  rw [remaining_eq, remaining_eq] at h
  omega

theorem read_left {content : Str} (hle : content.length ≤ p.left) {d : Delta}
    (h : wrapDeltaContent (eraseStructuralMarkers content) = some d) :
    left { p with streamingPosition := p.streamingPosition + content.length } < p.left := by
  have hne : content ≠ [] := by
    rintro rfl
    have hnone : wrapDeltaContent (eraseStructuralMarkers []) = none := rfl
    rw [hnone] at h
    cases h
  have hpos := List.length_pos_iff.mpr hne
  simp only [left] at hle ⊢
  omega

/-- Content that is given is read. -/
theorem giveContent_left {contentEnd : Option Nat} {d : Delta} (h : (p.giveContent contentEnd).1 = some d) :
    (p.giveContent contentEnd).2.left < p.left := by
  cases contentEnd with
  | none => exact read_left (by simp [left]) h
  | some contentEnd => exact read_left (by simp [left, substr]) h

/-- A delta of the loop leaves less to be read. -/
theorem parseBody_delta_left {d : Delta} {q : Parser} (h : p.parseBody env = .inr (some (some d), q)) : q.left < p.left := by
  have hcontent := parseNewContent_content_left (p := p) env
  have hless := parseNewContent_remaining (p := p) env
  unfold parseBody at h
  cases hparse : p.parseNewContent env with
  | mk progressed t =>
  rw [hparse] at h hless hcontent
  dsimp only at h hless hcontent
  cases hs : t.currentState with
  | content =>
    simp only [hs] at h
    split at h
    next => cases h
    next hprogress =>
      simp only [Sum.inr.injEq, Prod.mk.injEq, Option.some.injEq] at h
      obtain ⟨hdelta, rfl⟩ := h
      exact Nat.lt_of_lt_of_le (giveContent_left hdelta) (hcontent (by simpa using hprogress) hs)
  | toolCallStarted =>
    simp only [hs] at h
    split at h <;> cases h
  | toolCallParameters =>
    simp only [hs] at h
    split at h <;> cases h
  | toolCallEnded =>
    simp only [hs] at h hless
    split at h
    next => cases h
    next hprogress =>
      split at h
      next => cases h
      next =>
        cases h
        have hremaining := hless (by simp) (Or.inl (by simpa using hprogress))
        have hrank := rank_le p.currentState
        rw [remaining_eq, remaining_eq, hs] at hremaining
        have hone : rank .toolCallEnded = 1 := rfl
        show t.left < p.left
        omega
  | afterToolCall =>
    simp only [hs] at h
    split at h <;> cases h

/-- A delta that is drained leaves less to be read. -/
theorem drainPendingDelta_left {d : Delta} {q : Parser} (h : p.drainPendingDelta env = (some d, q)) : q.left < p.left := by
  have hbefore : ∀ r : Option (Option Delta) × Parser, Loop.Exits (parseBody env) (p.append []) r →
      ∀ d, r.1 = some (some d) → r.2.left < p.left := by
    intro r hexits
    refine Loop.Exits.invariant (I := fun t => t.left ≤ p.left)
      (Q := fun r => ∀ d, r.1 = some (some d) → r.2.left < p.left) ?_ ?_ hexits ?_
    · intro t u hle hu
      exact (left_of_remaining (parseBody_remaining env hu)).trans hle
    · rintro t ⟨_, u⟩ hle hu d rfl
      exact Nat.lt_of_lt_of_le (parseBody_delta_left env hu) hle
    · rw [append, List.append_nil]
  have hexits := parseAll_exits env (p.append [])
  unfold drainPendingDelta parseChunk at h
  cases hall : (p.append []).parseAll env with
  | mk delta t =>
    rw [hall] at h hexits
    cases delta with
    | none => cases h
    | some delta =>
      cases h
      exact hbefore _ hexits d rfl

end Gemma4ToolParser.Parser

namespace OutputParser

section Streamer

variable {τ ρ κ : Type} (o : OutputParser τ ρ κ)

/-- How many deltas there are to drain. -/
noncomputable def pendingDeltas (h : ∀ s : State τ ρ κ, ∃ ds t, Streaming.Drains o.drainPendingDelta s ds t) (s : State τ ρ κ) : Nat :=
  (h s).choose.length

theorem pendingDeltas_lt (h : ∀ s : State τ ρ κ, ∃ ds t, Streaming.Drains o.drainPendingDelta s ds t) {s t : State τ ρ κ} {d : Delta}
    (hdrain : o.drainPendingDelta s = (some d, t)) : o.pendingDeltas h t < o.pendingDeltas h s := by
  obtain ⟨u, hafter⟩ := (h t).choose_spec
  obtain ⟨v, hbefore⟩ := (h s).choose_spec
  obtain ⟨hsame, -⟩ := hbefore.unique (.more hdrain hafter)
  rw [pendingDeltas, pendingDeltas, hsame]
  exact Nat.lt_succ_self _

/-- The parser as a streamer uses it. -/
noncomputable def streamParser (h : ∀ s : State τ ρ κ, ∃ ds t, Streaming.Drains o.drainPendingDelta s ds t)
    (needSpecialTokensForCurrentDecode : State τ ρ κ → Bool → Bool) (getPhaseStartTagForToken : State τ ρ κ → Int → Bool → Str) :
    StreamParser (State τ ρ κ) where
  parseChunk s chunk _ toolsAvailable finishReason := some (o.parseChunk s chunk toolsAvailable finishReason)
  drainPendingDelta s := some (o.drainPendingDelta s)
  needSpecialTokensForCurrentDecode := needSpecialTokensForCurrentDecode
  getPhaseStartTagForToken := getPhaseStartTagForToken
  pending := o.pendingDeltas h
  drains hdrain := o.pendingDeltas_lt h (Option.some.inj hdrain)

end Streamer

end OutputParser

/-- Each delta that the Gemma route drains leaves less for the router or for the tool parser. -/
theorem Gemma4Route.drains_end (env : Gemma4ToolParser.Environment) (s : Gemma4Route.RouteState) :
    ∃ ds t, Streaming.Drains (gemma4Route env).drainPendingDelta s ds t :=
  OutputParser.drains_end (μ := Gemma4ToolParser.Parser.left)
    (fun _ _ _ h => Gemma4ToolParser.Parser.drainPendingDelta_left env h) s

theorem Qwen3Route.drains_end (env : Qwen3CoderToolParser.Environment) (s : Qwen3Route.RouteState) :
    ∃ ds t, Streaming.Drains (qwen3Route env).drainPendingDelta s ds t := by
  refine OutputParser.drains_end (μ := fun p => p.pendingDeltas.length) ?_ s
  intro p d q h
  have hqueue : p.takeQueuedDelta = (some d, q) := h
  rw [Qwen3CoderToolParser.Parser.takeQueuedDelta] at hqueue
  cases hpending : p.pendingDeltas with
  | nil =>
    rw [hpending] at hqueue
    cases hqueue
  | cons e es =>
    rw [hpending] at hqueue
    cases hqueue
    exact Nat.lt_succ_self _

section Flush

open OVMSTextStreamer

variable {σ : Type} (env : OVMSTextStreamer.Environment σ)

/-- The drain loop of `flush_chunk` is left. -/
theorem drainDeltas_exits (parser : StreamParser σ) (s : Streamer σ) (delta : Option Delta) :
    Loop.Exits (Streamer.drainBody { env with outputParser := some parser } parser) (delta, s)
      (s.drainDeltas { env with outputParser := some parser } delta) :=
  Loop.run_exits (fun state => parser.pending state.2.parser) (fun _ _ => drainBody_pending _ parser) _ (Nat.lt_succ_self _)

/-- The drain loop of every streamer over these parsers is left. -/
def FlushEnds {τ ρ κ : Type} (o : OutputParser τ ρ κ)
    (h : ∀ s : OutputParser.State τ ρ κ, ∃ ds t, Streaming.Drains o.drainPendingDelta s ds t) : Prop :=
  ∀ (env : OVMSTextStreamer.Environment (OutputParser.State τ ρ κ)) (decodes : OutputParser.State τ ρ κ → Bool → Bool)
    (tags : OutputParser.State τ ρ κ → Int → Bool → Str) (s : Streamer (OutputParser.State τ ρ κ)) (delta : Option Delta),
    Loop.Exits (Streamer.drainBody { env with outputParser := some (o.streamParser h decodes tags) } (o.streamParser h decodes tags)) (delta, s)
      (s.drainDeltas { env with outputParser := some (o.streamParser h decodes tags) } delta)

/-- On both routes the loops of the tool parser are left, whatever the chunk is; and in every state, so after every chunk and finish
reason, draining comes to its end, with it the drain loop of a streamer. -/
theorem parsing_ends (gemma4 : Gemma4ToolParser.Environment) (qwen : Qwen3CoderToolParser.Environment) :
    (∀ (p : Gemma4ToolParser.Parser) (chunk : Str),
      Loop.Exits (Gemma4ToolParser.Parser.parseBody gemma4) (p.append chunk) ((p.append chunk).parseAll gemma4)) ∧
    (∀ (p : Qwen3CoderToolParser.Impl) (types : ToolsParameterTypeMap) (chunk : Str),
      Loop.Exits (Qwen3CoderToolParser.Impl.parseBody qwen.rapidJson qwen.randomIds types) (p.append chunk, [])
        ((p.append chunk).parseAll qwen.rapidJson qwen.randomIds types)) ∧
    (∀ s : Gemma4Route.RouteState, (∃ ds t, Streaming.Drains (gemma4Route gemma4).drainPendingDelta s ds t) ∧
      ¬Streaming.Endless (gemma4Route gemma4).drainPendingDelta s) ∧
    (∀ s : Qwen3Route.RouteState, (∃ ds t, Streaming.Drains (qwen3Route qwen).drainPendingDelta s ds t) ∧
      ¬Streaming.Endless (qwen3Route qwen).drainPendingDelta s) ∧
    FlushEnds (gemma4Route gemma4) (Gemma4Route.drains_end gemma4) ∧ FlushEnds (qwen3Route qwen) (Qwen3Route.drains_end qwen) := by
  refine ⟨?_, ?_, ?_, ?_, ?_, ?_⟩
  · exact fun p chunk => Gemma4ToolParser.Parser.parseAll_exits gemma4 (p.append chunk)
  · exact fun p types chunk => Qwen3CoderToolParser.Impl.parseAll_exits qwen.rapidJson qwen.randomIds types (p.append chunk)
  · intro s
    obtain ⟨ds, t, hdrains⟩ := Gemma4Route.drains_end gemma4 s
    exact ⟨⟨ds, t, hdrains⟩, hdrains.not_endless⟩
  · intro s
    obtain ⟨ds, t, hdrains⟩ := Qwen3Route.drains_end qwen s
    exact ⟨⟨ds, t, hdrains⟩, hdrains.not_endless⟩
  · exact fun env _ _ s delta => drainDeltas_exits env _ s delta
  · exact fun env _ _ s delta => drainDeltas_exits env _ s delta

end Flush

end ModelServer
