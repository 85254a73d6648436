import ModelServer.Gemma4Containers
import ModelServer.Gemma4ToolParser

namespace ModelServer.Gemma4ToolParser.Parser

variable (env : Environment) {p : Parser}

section Steps

/-- A rejected candidate is given up at the next envelope, ended at its end tag, or
waited for. -/
theorem skipRejected_cases (p : Parser) :
    (∃ start, p.find TOOL_CALL_START_TAG = some start ∧
      posLt (some start) (p.find TOOL_CALL_END_TAG) = true ∧ p.skipRejected = (true, p.resumeAt start)) ∨
    (∃ envelopeEnd, p.find TOOL_CALL_END_TAG = some envelopeEnd ∧
      posLt (p.find TOOL_CALL_START_TAG) (some envelopeEnd) = false ∧
      p.skipRejected = (true, p.endCandidate envelopeEnd)) ∨
    (p.find TOOL_CALL_START_TAG = none ∧ p.find TOOL_CALL_END_TAG = none ∧
      p.skipRejected = (false, p.retainSuffix)) := by
  unfold skipRejected
  cases hs : p.find TOOL_CALL_START_TAG with
  | none =>
    cases he : p.find TOOL_CALL_END_TAG with
    | none => exact Or.inr (Or.inr ⟨rfl, rfl, rfl⟩)
    | some envelopeEnd => exact Or.inr (Or.inl ⟨envelopeEnd, rfl, rfl, rfl⟩)
  | some start =>
    cases he : p.find TOOL_CALL_END_TAG with
    | none => exact Or.inl ⟨start, rfl, rfl, rfl⟩
    | some envelopeEnd =>
      by_cases hlt : posLt (some start) (some envelopeEnd) = true
      · exact Or.inl ⟨start, rfl, hlt, by simp [hlt]⟩
      · have hlt' : posLt (some start) (some envelopeEnd) = false := by simpa using hlt
        exact Or.inr (Or.inl ⟨envelopeEnd, rfl, hlt', by simp [hlt']⟩)

/-- Arguments are closed, malformed, too long or waited for. -/
theorem parseToolCallParametersState_cases (he : env.enforceToolRegistry = true)
    (hr : p.rejectedCandidate = false) :
    (∃ close, p.argumentsEnd.close = some close ∧
      p.parseToolCallParametersState env = (true, p.closeArguments env close)) ∨
    (∃ malformedEnd, p.argumentsEnd.close = none ∧ p.argumentsEnd.malformedEndTag = some malformedEnd ∧
      p.parseToolCallParametersState env = (true, p.endCandidate malformedEnd)) ∨
    (p.argumentsEnd.close = none ∧ p.argumentsEnd.malformedEndTag = none ∧
      p.argumentsEnd.candidateLimitExceeded = true ∧
      p.parseToolCallParametersState env = skipRejected { p with rejectedCandidate := true }) ∨
    (p.argumentsEnd.close = none ∧ p.argumentsEnd.malformedEndTag = none ∧
      p.argumentsEnd.candidateLimitExceeded = false ∧
      p.parseToolCallParametersState env = (false, p)) := by
  simp only [parseToolCallParametersState, he, Bool.not_true, Bool.false_eq_true, if_false, hr]
  cases hclose : p.argumentsEnd.close with
  | some close => exact Or.inl ⟨close, rfl, rfl⟩
  | none =>
    cases hmal : p.argumentsEnd.malformedEndTag with
    | some malformedEnd => exact Or.inr (Or.inl ⟨malformedEnd, rfl, rfl, rfl⟩)
    | none =>
      cases hlimit : p.argumentsEnd.candidateLimitExceeded with
      | true => exact Or.inr (Or.inr (Or.inl ⟨rfl, rfl, rfl, rfl⟩))
      | false => exact Or.inr (Or.inr (Or.inr ⟨rfl, rfl, rfl, rfl⟩))

theorem parseToolCallParametersState_unchecked (he : env.enforceToolRegistry = false) (p : Parser) :
    p.parseToolCallParametersState env = p.closeUnchecked env := by
  simp [parseToolCallParametersState, he]

theorem parseToolCallParametersState_rejected (he : env.enforceToolRegistry = true)
    (hr : p.rejectedCandidate = true) : p.parseToolCallParametersState env = p.skipRejected := by
  simp [parseToolCallParametersState, he, hr]

/-- A name is read up to its opening bracket, given up as too long, or waited for. -/
theorem parseInToolCallState_cases (he : env.enforceToolRegistry = true) (p : Parser) :
    (∃ argsPos, posMin (p.find TOOL_ARGS_START_INDICATOR) (p.find [openParen]) = some argsPos ∧
      p.parseInToolCallState env = (true, p.openArguments env argsPos)) ∨
    (posMin (p.find TOOL_ARGS_START_INDICATOR) (p.find [openParen]) = none ∧
      MAX_NATIVE_TOOL_CANDIDATE_BYTES < p.streamingContent.length - p.streamingPosition ∧
      p.parseInToolCallState env = p.reject.skipRejected) ∨
    (posMin (p.find TOOL_ARGS_START_INDICATOR) (p.find [openParen]) = none ∧
      p.streamingContent.length - p.streamingPosition ≤ MAX_NATIVE_TOOL_CANDIDATE_BYTES ∧
      p.parseInToolCallState env = (false, p)) := by
  simp only [parseInToolCallState, he, Bool.not_true, Bool.false_eq_true, if_false]
  cases hf : posMin (p.find TOOL_ARGS_START_INDICATOR) (p.find [openParen]) with
  | some argsPos => exact Or.inl ⟨argsPos, rfl, rfl⟩
  | none =>
    by_cases hlong : p.streamingContent.length - p.streamingPosition > MAX_NATIVE_TOOL_CANDIDATE_BYTES
    · exact Or.inr (Or.inl ⟨rfl, hlong, if_pos hlong⟩)
    · exact Or.inr (Or.inr ⟨rfl, Nat.le_of_not_lt hlong, if_neg hlong⟩)

/-- Without a registry, a brace ends the name or the arguments, or is waited for. -/
theorem parseInToolCallState_unchecked (he : env.enforceToolRegistry = false) (p : Parser) :
    (∃ argsPos, p.find TOOL_ARGS_START_INDICATOR = some argsPos ∧
      p.parseInToolCallState env = (true, p.openUnchecked env argsPos)) ∨
    p.parseInToolCallState env = (false, p) := by
  simp only [parseInToolCallState, he, Bool.not_false, if_true]
  cases hf : p.find TOOL_ARGS_START_INDICATOR with
  | some argsPos => exact Or.inl ⟨argsPos, rfl, rfl⟩
  | none => exact Or.inr rfl

/-- Behind a call comes the next one, a gap that gives it up, or the end tag. -/
theorem parseInToolCallEndedState_cases (p : Parser) :
    (∃ next, p.find TOOL_CALL_NAME_PREFIX = some next ∧
      posLt (some next) (p.find TOOL_CALL_END_TAG) = true ∧
      p.parseInToolCallEndedState env =
        if !env.enforceToolRegistry ||
          (trim (substr p.streamingContent p.streamingPosition (next - p.streamingPosition))).isEmpty
        then (true, { p with streamingPosition := next, currentState := .toolCallStarted })
        else p.reject.skipRejected) ∨
    (∃ envelopeEnd, posLt (p.find TOOL_CALL_NAME_PREFIX) (some envelopeEnd) = false ∧
      p.find TOOL_CALL_END_TAG = some envelopeEnd ∧
      p.parseInToolCallEndedState env = (true, { p with
        streamingPosition := envelopeEnd + TOOL_CALL_END_TAG.length, currentState := .afterToolCall })) ∨
    (posLt (p.find TOOL_CALL_NAME_PREFIX) none = false ∧ p.find TOOL_CALL_END_TAG = none ∧
      p.parseInToolCallEndedState env = (false, p)) := by
  unfold parseInToolCallEndedState
  dsimp only
  by_cases hlt : posLt (p.find TOOL_CALL_NAME_PREFIX) (p.find TOOL_CALL_END_TAG) = true
  · rw [if_pos hlt]
    cases hf : p.find TOOL_CALL_NAME_PREFIX with
    | none =>
      rw [hf] at hlt
      cases hlt
    | some next =>
      rw [hf] at hlt
      refine Or.inl ⟨next, rfl, hlt, ?_⟩
      rw [Option.getD_some]
      by_cases hgap :
          (trim (substr p.streamingContent p.streamingPosition (next - p.streamingPosition))).isEmpty = true
      · simp [hgap]
      · cases henv : env.enforceToolRegistry <;> simp [hgap, reject]
  · rw [if_neg hlt]
    have hlt' : posLt (p.find TOOL_CALL_NAME_PREFIX) (p.find TOOL_CALL_END_TAG) = false := by simpa using hlt
    cases he : p.find TOOL_CALL_END_TAG with
    | some envelopeEnd => exact Or.inr (Or.inl ⟨envelopeEnd, by rw [← he]; exact hlt', rfl, rfl⟩)
    | none => exact Or.inr (Or.inr ⟨by rw [← he]; exact hlt', rfl, rfl⟩)

end Steps

section Measure

/-- How much is still to be read. -/
def left (p : Parser) : Nat := p.streamingContent.length - p.streamingPosition

theorem remaining_eq (p : Parser) : p.remaining = 2 * p.left + rank p.currentState := rfl

theorem rank_le (state : State) : rank state ≤ 1 := by
  cases state <;> decide

theorem remaining_of_left {p q : Parser} (h : q.left < p.left) : q.remaining < p.remaining := by
  have := rank_le q.currentState
  rw [remaining_eq, remaining_eq]
  omega

theorem find_bounds {tag : Str} {i : Nat} (hne : tag ≠ []) (h : p.find tag = some i) :
    p.streamingPosition ≤ i ∧ i + tag.length ≤ p.streamingContent.length :=
  ModelServer.find_bounds hne h

theorem endCandidate_left {i : Nat} (hle : p.streamingPosition ≤ i)
    (hlt : i < p.streamingContent.length) : (p.endCandidate i).left < p.left := by
  have hpos : TOOL_CALL_END_TAG.length = 12 := rfl
  simp only [endCandidate, left]
  omega

theorem skipRejected_left (h : p.skipRejected.1 = true)
    (hc : p.skipRejected.2.currentState ≠ .content) : p.skipRejected.2.left < p.left := by
  rcases skipRejected_cases p with ⟨start, _, _, hskip⟩ | ⟨envelopeEnd, he, _, hskip⟩ | ⟨_, _, hskip⟩
  · rw [hskip] at hc
    exact absurd rfl hc
  · obtain ⟨hle, hlen⟩ := find_bounds (by decide) he
    have hpos : TOOL_CALL_END_TAG.length = 12 := rfl
    rw [hskip]
    exact endCandidate_left hle (by omega)
  · rw [hskip] at h
    cases h

theorem argumentsEnd_close {close : Nat} (h : p.argumentsEnd.close = some close) :
    p.streamingPosition ≤ close ∧ close < p.streamingContent.length := by
  obtain ⟨body, tail, hpos, hdrop, _, rfl⟩ := findMatchingContainerEnd_sound h
  have hlen := congrArg List.length hdrop
  simp only [List.length_drop, List.length_cons, List.length_append] at hlen
  omega

theorem closeUnchecked_left (h : (p.closeUnchecked env).1 = true) : (p.closeUnchecked env).2.left < p.left := by
  unfold closeUnchecked at *
  dsimp only at *
  split at h
  · cases h
  next pos hf =>
    obtain ⟨hle, hlt⟩ := findInString_bounds hf
    rw [length_maskDelimitedStringValues (by decide)] at hlt
    have hone : TOOL_ARGS_END_INDICATOR.length = 1 := rfl
    simp only [left]
    omega

theorem parseToolCallParametersState_left (h : (p.parseToolCallParametersState env).1 = true)
    (hc : (p.parseToolCallParametersState env).2.currentState ≠ .content) :
    (p.parseToolCallParametersState env).2.left < p.left := by
  cases henv : env.enforceToolRegistry with
  | false =>
    rw [parseToolCallParametersState_unchecked env henv] at h ⊢
    exact closeUnchecked_left env h
  | true =>
  cases hr : p.rejectedCandidate with
  | true =>
    rw [parseToolCallParametersState_rejected env henv hr] at h hc ⊢
    exact skipRejected_left h hc
  | false =>
    rcases parseToolCallParametersState_cases env henv hr with ⟨close, hclose, hstep⟩ |
      ⟨malformedEnd, _, hmal, hstep⟩ | ⟨_, _, _, hstep⟩ | ⟨_, _, _, hstep⟩
    · obtain ⟨hle, hlt⟩ := argumentsEnd_close hclose
      rw [hstep]
      simp only [closeArguments, left]
      omega
    · rw [hstep]
      obtain ⟨hle, hlt⟩ := findMatchingContainerEnd_malformed hmal
      exact endCandidate_left hle hlt
    · rw [hstep] at h hc ⊢
      exact skipRejected_left h hc
    · rw [hstep] at h
      cases h

/-- A candidate that is given up is read on, unless the parser waits or resumes at an envelope. -/
theorem parseInToolCallState_left (h : (p.parseInToolCallState env).1 = true)
    (hc : (p.parseInToolCallState env).2.currentState ≠ .content) :
    (p.parseInToolCallState env).2.left < p.left := by
  have hone : TOOL_ARGS_START_INDICATOR.length = 1 := rfl
  cases henv : env.enforceToolRegistry with
  | false =>
    rcases parseInToolCallState_unchecked env henv p with ⟨argsPos, hf, hstep⟩ | hstep
    · obtain ⟨hle, hlt⟩ := find_bounds (by decide) hf
      rw [hstep]
      simp only [left, openUnchecked]
      omega
    · rw [hstep] at h
      cases h
  | true =>
  rcases parseInToolCallState_cases env henv p with ⟨argsPos, hf, hstep⟩ | ⟨_, _, hstep⟩ | ⟨_, _, hstep⟩
  · have hbounds : p.streamingPosition ≤ argsPos ∧ argsPos + 1 ≤ p.streamingContent.length := by
      unfold posMin at hf
      split at hf
      · have hparen : p.find [openParen] = some argsPos := hf
        exact find_bounds (by simp) hparen
      · have hbrace : p.find TOOL_ARGS_START_INDICATOR = some argsPos := hf
        exact find_bounds (by decide) hbrace
    rw [hstep]
    simp only [left, openArguments]
    omega
  · rw [hstep] at h hc ⊢
    exact skipRejected_left h hc
  · rw [hstep] at h
    cases h

theorem parseInToolCallEndedState_remaining (hstate : p.currentState = .toolCallEnded)
    (h : (p.parseInToolCallEndedState env).1 = true)
    (hc : (p.parseInToolCallEndedState env).2.currentState ≠ .content) :
    (p.parseInToolCallEndedState env).2.remaining < p.remaining := by
  rcases parseInToolCallEndedState_cases env p with ⟨next, hf, _, hstep⟩ | ⟨envelopeEnd, _, hf, hstep⟩ |
    ⟨_, _, hstep⟩
  · rw [hstep] at h hc ⊢
    split at h
    next hgap =>
      have hone : rank p.currentState = 1 := by rw [hstate]; rfl
      have hzero : rank .toolCallStarted = 0 := rfl
      obtain ⟨hle, _⟩ := find_bounds (by decide) hf
      simp only [hgap, if_true, remaining_eq, left]
      omega
    next hgap =>
      rw [if_neg hgap] at hc ⊢
      exact remaining_of_left (skipRejected_left h hc)
  · obtain ⟨hle, hend⟩ := find_bounds (by decide) hf
    have hlen : TOOL_CALL_END_TAG.length = 12 := rfl
    rw [hstep]
    apply remaining_of_left
    simp only [left]
    omega
  · rw [hstep] at h
    cases h

theorem parseInContentState_remaining (hstate : p.currentState = .content)
    (hc : (p.parseInContentState env).2.currentState ≠ .content) :
    (p.parseInContentState env).1 = false ∧ (p.parseInContentState env).2.remaining < p.remaining := by
  have hone : rank p.currentState = 1 := by rw [hstate]; rfl
  have hzero : rank .toolCallStarted = 0 := rfl
  unfold parseInContentState at *
  cases hf : p.find TOOL_CALL_START_TAG with
  | none =>
    simp only [hf] at hc ⊢
    split at hc
    next hpreamble =>
      simp only [hpreamble, if_true, remaining_eq, left, true_and]
      omega
    · exact absurd hstate hc
  | some start =>
    obtain ⟨hle, _⟩ := find_bounds (by decide) hf
    simp only [hf] at hc ⊢
    split at hc
    · exact absurd hstate hc
    next hat =>
      simp only [hat, if_false, remaining_eq, left, true_and]
      omega

theorem skipRejected_waits (h : p.skipRejected.1 = false) : p.skipRejected.2.currentState = p.currentState := by
  rcases skipRejected_cases p with ⟨_, _, _, hskip⟩ | ⟨_, _, _, hskip⟩ | ⟨_, _, hskip⟩
  · rw [hskip] at h
    cases h
  · rw [hskip] at h
    cases h
  · rw [hskip, retainSuffix]
    split <;> rfl

theorem closeUnchecked_waits (h : (p.closeUnchecked env).1 = false) : (p.closeUnchecked env).2 = p := by
  unfold closeUnchecked at *
  dsimp only at *
  split at h
  · rfl
  · cases h

/-- A call is begun without progress only out of content. -/
theorem parseNewContent_waits (h : (p.parseNewContent env).1 = false)
    (hstarted : (p.parseNewContent env).2.currentState = .toolCallStarted)
    (hstate : p.currentState ≠ .toolCallStarted) : p.currentState = .content := by
  have hskip {q : Parser} (hq : q.currentState = .toolCallParameters) (h : q.skipRejected.1 = false)
      (hs : q.skipRejected.2.currentState = .toolCallStarted) : False := by
    rw [skipRejected_waits h, hq] at hs
    cases hs
  unfold parseNewContent at h hstarted
  cases hs : p.currentState with
  | content => rfl
  | toolCallStarted => exact absurd hs hstate
  | toolCallParameters =>
    simp only [hs] at h hstarted
    cases henv : env.enforceToolRegistry with
    | false =>
      rw [parseToolCallParametersState_unchecked env henv] at h hstarted
      rw [closeUnchecked_waits env h, hs] at hstarted
      cases hstarted
    | true =>
    cases hr : p.rejectedCandidate with
    | true =>
      rw [parseToolCallParametersState_rejected env henv hr] at h hstarted
      exact (hskip hs h hstarted).elim
    | false =>
      rcases parseToolCallParametersState_cases env henv hr with ⟨_, _, hstep⟩ | ⟨_, _, _, hstep⟩ |
        ⟨_, _, _, hstep⟩ | ⟨_, _, _, hstep⟩
      · rw [hstep] at h
        cases h
      · rw [hstep] at h
        cases h
      · rw [hstep] at h hstarted
        have hsame : ({ p with rejectedCandidate := true } : Parser).currentState = .toolCallParameters := hs
        exact (hskip hsame h hstarted).elim
      · rw [hstep, hs] at hstarted
        cases hstarted
  | toolCallEnded =>
    simp only [hs] at h hstarted
    rcases parseInToolCallEndedState_cases env p with ⟨_, _, _, hstep⟩ | ⟨_, _, _, hstep⟩ | ⟨_, _, hstep⟩
    · rw [hstep] at h hstarted
      split at h
      · cases h
      next hgap =>
        rw [if_neg hgap] at hstarted
        have hsame : p.reject.currentState = .toolCallParameters := rfl
        exact (hskip hsame h hstarted).elim
    · rw [hstep] at h
      cases h
    · rw [hstep, hs] at hstarted
      cases hstarted
  | afterToolCall =>
    simp only [hs] at hstarted
    cases hstarted

theorem parseNewContent_remaining (hc : (p.parseNewContent env).2.currentState ≠ .content)
    (h : (p.parseNewContent env).1 = true ∨ p.currentState = .content) :
    (p.parseNewContent env).2.remaining < p.remaining := by
  unfold parseNewContent at *
  cases hs : p.currentState with
  | content =>
    simp only [hs] at hc ⊢
    exact (parseInContentState_remaining env hs hc).2
  | toolCallStarted =>
    simp only [hs, reduceCtorEq, or_false] at hc h ⊢
    exact remaining_of_left (parseInToolCallState_left env h hc)
  | toolCallParameters =>
    simp only [hs, reduceCtorEq, or_false] at hc h ⊢
    exact remaining_of_left (parseToolCallParametersState_left env h hc)
  | toolCallEnded =>
    simp only [hs, reduceCtorEq, or_false] at hc h ⊢
    exact parseInToolCallEndedState_remaining env hs h hc
  | afterToolCall => simp [hs] at h

/-- A pass that goes on has read something or entered a call. -/
theorem parseBody_remaining {q : Parser} (h : p.parseBody env = .inl q) : q.remaining < p.remaining := by
  have hless := parseNewContent_remaining (p := p) env
  have hwaits := parseNewContent_waits (p := p) env
  unfold parseBody at h
  cases hparse : p.parseNewContent env with
  | mk progressed t =>
  rw [hparse] at h hless hwaits
  dsimp only at h hless hwaits
  cases hs : t.currentState with
  | content =>
    simp only [hs] at h
    split at h <;> cases h
  | toolCallStarted =>
    simp only [hs] at h hless hwaits
    split at h
    · cases h
    next hgo =>
      cases h
      refine hless (by simp) ?_
      cases progressed with
      | true => exact Or.inl rfl
      | false => exact Or.inr (hwaits rfl trivial (by simpa using hgo))
  | toolCallParameters =>
    simp only [hs] at h hless
    split at h
    next hprogress =>
      cases h
      exact hless (by simp) (Or.inl hprogress)
    · cases h
  | toolCallEnded =>
    simp only [hs] at h hless
    split at h
    · cases h
    next hprogress =>
      split at h
      · cases h
        exact hless (by simp) (Or.inl (by simpa using hprogress))
      · cases h
  | afterToolCall =>
    simp only [hs] at h hless
    split at h
    next hprogress =>
      cases h
      have hsame : remaining { t with currentState := .content } = t.remaining := by
        rw [remaining_eq, remaining_eq, hs]
        rfl
      rw [hsame]
      exact hless (by simp) (Or.inl hprogress)
    · cases h

theorem parseAll_exits (p : Parser) : Loop.Exits (parseBody env) p (p.parseAll env) :=
  Loop.run_exits remaining (fun _ _ => parseBody_remaining env) _ (Nat.lt_succ_self _)

end Measure

end ModelServer.Gemma4ToolParser.Parser
