import ModelServer.Gemma4Progress
import ModelServer.Gemma4Route
import ModelServer.RouteReset

/-! The Gemma4 tool parser never reads the random ids it draws. -/

namespace ModelServer.Gemma4ToolParser

variable (env : Environment) (ids : RandomIds)

namespace Parser

/-- The parser with another id for the call at hand, and after another number of draws. -/
def redraw (p : Parser) (id : Str) (n : Nat) : Parser :=
  { p with toolCall := { p.toolCall with id := id }, drawnIds := n }

/-- Two parsers that differ in their random ids at most. -/
def SameButIds (p q : Parser) : Prop := ∃ id n, q = p.redraw id n

theorem SameButIds.refl (p : Parser) : SameButIds p p := ⟨p.toolCall.id, p.drawnIds, rfl⟩

/-- A step's answer is the same, and so is what it leaves, ids aside. -/
def Redrawn (r r' : Bool × Parser) : Prop := r'.1 = r.1 ∧ SameButIds r.2 r'.2

theorem Redrawn.ite {c : Prop} [Decidable c] {a b a' b' : Bool × Parser} (ha : Redrawn a a')
    (hb : Redrawn b b') : Redrawn (if c then a else b) (if c then a' else b') := by
  split
  · exact ha
  · exact hb

/-- The same environment with another generator. -/
abbrev redrawing : Environment := { env with randomIds := ids }

section Steps

variable (p : Parser) (id : Str) (n : Nat)

theorem find_redraw (tag : Str) : (p.redraw id n).find tag = p.find tag := rfl

theorem retainSuffix_redraw : (p.redraw id n).retainSuffix = p.retainSuffix.redraw id n := by
  have hcontent : (p.redraw id n).streamingContent = p.streamingContent := rfl
  unfold retainSuffix
  rw [hcontent]
  by_cases hlong : p.streamingContent.length > TOOL_CALL_END_TAG.length - 1
  · simp only [hlong, if_true]
    rfl
  · simp only [hlong, if_false]

theorem skipRejected_redraw : Redrawn p.skipRejected (p.redraw id n).skipRejected := by
  unfold skipRejected
  simp only [find_redraw]
  split
  · exact ⟨rfl, _, _, rfl⟩
  · exact ⟨rfl, _, _, retainSuffix_redraw p id n⟩
  · exact .ite ⟨rfl, _, _, rfl⟩ ⟨rfl, _, _, rfl⟩

theorem firstPreamble_redraw (pos : Option Nat) :
    (p.redraw id n).firstPreamble (redrawing env ids) pos = p.firstPreamble env pos := rfl

theorem parseInContentState_redraw :
    Redrawn (p.parseInContentState env) ((p.redraw id n).parseInContentState (redrawing env ids)) := by
  unfold parseInContentState
  simp only [find_redraw, firstPreamble_redraw]
  have hposition : (p.redraw id n).streamingPosition = p.streamingPosition := rfl
  rw [hposition]
  split
  · exact .ite ⟨rfl, _, _, rfl⟩ ⟨rfl, _, _, rfl⟩
  · exact .ite ⟨rfl, _, _, rfl⟩ ⟨rfl, _, _, rfl⟩

theorem closeUnchecked_redraw :
    Redrawn (p.closeUnchecked env) ((p.redraw id n).closeUnchecked (redrawing env ids)) := by
  unfold closeUnchecked
  dsimp only [redraw]
  split
  · exact ⟨rfl, _, _, rfl⟩
  · exact ⟨rfl, _, _, rfl⟩

theorem closeArguments_redraw (close : Nat) :
    SameButIds (p.closeArguments env close)
      ((p.redraw id n).closeArguments (redrawing env ids) close) := by
  unfold closeArguments
  dsimp only [redraw]
  split
  · exact ⟨_, _, rfl⟩
  · exact ⟨_, _, rfl⟩

theorem parseToolCallParametersState_redraw :
    Redrawn (p.parseToolCallParametersState env)
      ((p.redraw id n).parseToolCallParametersState (redrawing env ids)) := by
  have henforce : (redrawing env ids).enforceToolRegistry = env.enforceToolRegistry := rfl
  have hrejected : (p.redraw id n).rejectedCandidate = p.rejectedCandidate := rfl
  have hend : (p.redraw id n).argumentsEnd = p.argumentsEnd := rfl
  have hlimit := skipRejected_redraw { p with rejectedCandidate := true } id n
  unfold parseToolCallParametersState
  rw [henforce, hrejected, hend]
  refine .ite (closeUnchecked_redraw env ids p id n) (.ite (skipRejected_redraw p id n) ?_)
  split
  next close _ => exact ⟨rfl, closeArguments_redraw env ids p id n close⟩
  split
  · exact ⟨rfl, _, _, rfl⟩
  · exact .ite hlimit ⟨rfl, _, _, rfl⟩

theorem parseInToolCallState_redraw :
    Redrawn (p.parseInToolCallState env) ((p.redraw id n).parseInToolCallState (redrawing env ids)) := by
  have henforce : (redrawing env ids).enforceToolRegistry = env.enforceToolRegistry := rfl
  have hcontent : (p.redraw id n).streamingContent = p.streamingContent := rfl
  have hposition : (p.redraw id n).streamingPosition = p.streamingPosition := rfl
  unfold parseInToolCallState
  simp only [find_redraw, henforce, hcontent, hposition]
  refine .ite ?_ ?_
  · split
    · exact ⟨rfl, _, _, rfl⟩
    · exact ⟨rfl, _, _, rfl⟩
  · split
    · exact .ite (skipRejected_redraw p.reject id n) ⟨rfl, _, _, rfl⟩
    · exact ⟨rfl, _, _, rfl⟩

theorem parseInToolCallEndedState_redraw :
    Redrawn (p.parseInToolCallEndedState env)
      ((p.redraw id n).parseInToolCallEndedState (redrawing env ids)) := by
  have henforce : (redrawing env ids).enforceToolRegistry = env.enforceToolRegistry := rfl
  have hcontent : (p.redraw id n).streamingContent = p.streamingContent := rfl
  have hposition : (p.redraw id n).streamingPosition = p.streamingPosition := rfl
  unfold parseInToolCallEndedState
  simp only [find_redraw, henforce, hcontent, hposition]
  refine .ite (.ite (skipRejected_redraw p.reject id n) ⟨rfl, _, _, rfl⟩) ?_
  · split
    · exact ⟨rfl, _, _, rfl⟩
    · exact ⟨rfl, _, _, rfl⟩

theorem parseNewContent_redraw :
    Redrawn (p.parseNewContent env) ((p.redraw id n).parseNewContent (redrawing env ids)) := by
  have hstate : (p.redraw id n).currentState = p.currentState := rfl
  unfold parseNewContent
  rw [hstate]
  split
  · exact parseInContentState_redraw env ids p id n
  · exact parseInToolCallState_redraw env ids p id n
  · exact parseToolCallParametersState_redraw env ids p id n
  · exact parseInToolCallEndedState_redraw env ids p id n
  · exact ⟨rfl, _, _, rfl⟩

end Steps

section Deltas

variable {p q : Parser}

theorem giveContent_sameButIds (h : SameButIds p q) (contentEnd : Option Nat) :
    Alike SameButIds (p.giveContent contentEnd) (q.giveContent contentEnd) := by
  obtain ⟨id, n, rfl⟩ := h
  exact ⟨rfl, _, _, rfl⟩

theorem wrapCompletedToolCall_sameButIds (h : SameButIds p q) :
    (p.wrapCompletedToolCall env).1.anonymous =
        (q.wrapCompletedToolCall (redrawing env ids)).1.anonymous ∧
      SameButIds (p.wrapCompletedToolCall env).2 (q.wrapCompletedToolCall (redrawing env ids)).2 := by
  obtain ⟨id, n, rfl⟩ := h
  exact ⟨rfl, _, _, rfl⟩

/-- A pass goes on alike, or leaves the loop alike. -/
def PassesAlike : Parser ⊕ (Option (Option Delta) × Parser) →
    Parser ⊕ (Option (Option Delta) × Parser) → Prop
  | .inl p, .inl q => SameButIds p q
  | .inr r, .inr r' =>
    r.1.map (Option.map Delta.anonymous) = r'.1.map (Option.map Delta.anonymous) ∧ SameButIds r.2 r'.2
  | _, _ => False

theorem PassesAlike.ite {c : Prop} [Decidable c]
    {a b a' b' : Parser ⊕ (Option (Option Delta) × Parser)} (ha : PassesAlike a a')
    (hb : PassesAlike b b') : PassesAlike (if c then a else b) (if c then a' else b') := by
  split
  · exact ha
  · exact hb

theorem parseBody_sameButIds (h : SameButIds p q) :
    PassesAlike (p.parseBody env) (q.parseBody (redrawing env ids)) := by
  obtain ⟨id, n, rfl⟩ := h
  obtain ⟨hprogress, id', n', hnext⟩ := parseNewContent_redraw env ids p id n
  unfold parseBody
  cases hparse : p.parseNewContent env with
  | mk progressed t =>
  cases hparse' : (p.redraw id n).parseNewContent (redrawing env ids) with
  | mk progressed' t' =>
  rw [hparse, hparse'] at hprogress hnext
  dsimp only at hprogress hnext
  subst hprogress hnext
  have hsame : SameButIds t (t.redraw id' n') := ⟨id', n', rfl⟩
  have hstate : (t.redraw id' n').currentState = t.currentState := rfl
  have hbefore : (p.redraw id n).currentState = p.currentState := rfl
  have harguments : (t.redraw id' n').toolCall.arguments = t.toolCall.arguments := rfl
  dsimp only
  rw [hstate, hbefore, harguments]
  cases t.currentState with
  | toolCallStarted => exact .ite ⟨rfl, hsame⟩ hsame
  | toolCallParameters => exact .ite hsame ⟨rfl, hsame⟩
  | toolCallEnded =>
    obtain ⟨hdelta, hleft⟩ := wrapCompletedToolCall_sameButIds env ids hsame
    refine .ite ⟨rfl, hsame⟩ (.ite hsame ⟨?_, hleft⟩)
    exact congrArg (fun delta => some (some delta)) hdelta
  | content =>
    obtain ⟨hdelta, hleft⟩ := giveContent_sameButIds hsame (t.firstPreamble env (t.find TOOL_CALL_START_TAG))
    exact .ite ⟨rfl, hsame⟩ ⟨congrArg some hdelta, hleft⟩
  | afterToolCall => exact .ite ⟨id', n', rfl⟩ ⟨rfl, hsame⟩

theorem parseAll_eq {r : Option (Option Delta) × Parser} (h : Loop.Exits (parseBody env) p r) :
    p.parseAll env = r :=
  (parseAll_exits env p).unique h

theorem parseAll_sameButIds (h : SameButIds p q) :
    (p.parseAll env).1.map (Option.map Delta.anonymous) =
        (q.parseAll (redrawing env ids)).1.map (Option.map Delta.anonymous) ∧
      SameButIds (p.parseAll env).2 (q.parseAll (redrawing env ids)).2 := by
  have hsim : ∃ r', Loop.Exits (parseBody (redrawing env ids)) q r' ∧
      PassesAlike (.inr (p.parseAll env)) (.inr r') := by
    refine (parseAll_exits env p).simulate (R := SameButIds)
      (Q := fun r r' => PassesAlike (.inr r) (.inr r')) ?_ ?_ h
    · intro s s' t hs ht
      have hpass := parseBody_sameButIds env ids hs
      rw [ht] at hpass
      cases ht' : s'.parseBody (redrawing env ids) with
      | inl t' => exact ⟨t', rfl, by rwa [ht'] at hpass⟩
      | inr r' => rw [ht'] at hpass; cases hpass
    · intro s s' r hs hr
      have hpass := parseBody_sameButIds env ids hs
      rw [hr] at hpass
      cases hr' : s'.parseBody (redrawing env ids) with
      | inl t' => rw [hr'] at hpass; cases hpass
      | inr r' => exact ⟨r', rfl, by rwa [hr'] at hpass⟩
  obtain ⟨r', hexits, hleft⟩ := hsim
  rw [parseAll_eq (redrawing env ids) hexits]
  exact hleft

theorem finish_sameButIds (h : SameButIds p q) :
    Alike SameButIds (p.finish env) (q.finish (redrawing env ids)) := by
  have hlook : SameButIds
      (if p.currentState = .toolCallParameters then (p.parseToolCallParametersState env).2 else p)
      (if q.currentState = .toolCallParameters then
        (q.parseToolCallParametersState (redrawing env ids)).2 else q) := by
    obtain ⟨id, n, rfl⟩ := h
    have hstate : (p.redraw id n).currentState = p.currentState := rfl
    rw [hstate]
    split
    · exact (parseToolCallParametersState_redraw env ids p id n).2
    · exact ⟨id, n, rfl⟩
  unfold finish
  generalize (if p.currentState = .toolCallParameters then (p.parseToolCallParametersState env).2
    else p) = t at hlook ⊢
  generalize (if q.currentState = .toolCallParameters then
    (q.parseToolCallParametersState (redrawing env ids)).2 else q) = u at hlook ⊢
  have hlook' := hlook
  obtain ⟨id, n, rfl⟩ := hlook
  have hstate : (t.redraw id n).currentState = t.currentState := rfl
  have harguments : (t.redraw id n).toolCall.arguments = t.toolCall.arguments := rfl
  have hcontent : (t.redraw id n).streamingContent = t.streamingContent := rfl
  have hposition : (t.redraw id n).streamingPosition = t.streamingPosition := rfl
  dsimp only
  rw [hstate, harguments, hcontent, hposition]
  refine .ite (fun _ => ?_) fun _ => .ite (fun _ => ?_) fun _ => .quiet hlook'
  · obtain ⟨hdelta, hleft⟩ := wrapCompletedToolCall_sameButIds env ids hlook'
    exact ⟨congrArg some hdelta, hleft⟩
  · exact giveContent_sameButIds hlook' none

theorem parseChunk_sameButIds (h : SameButIds p q) (chunk : Str) (finishReason : FinishReason) :
    Alike SameButIds (p.parseChunk env chunk finishReason)
      (q.parseChunk (redrawing env ids) chunk finishReason) := by
  have happend : SameButIds (p.append chunk) (q.append chunk) := by
    obtain ⟨id, n, rfl⟩ := h
    exact ⟨id, n, rfl⟩
  obtain ⟨hdelta, hleft⟩ := parseAll_sameButIds env ids happend
  unfold parseChunk
  cases hall : (p.append chunk).parseAll env with
  | mk delta t =>
  cases hall' : (q.append chunk).parseAll (redrawing env ids) with
  | mk delta' u =>
  rw [hall, hall'] at hdelta hleft
  cases delta with
  | none =>
    cases delta' with
    | none => exact .ite (fun _ => finish_sameButIds env ids hleft) fun _ => .quiet hleft
    | some delta' => cases hdelta
  | some delta =>
    cases delta' with
    | none => cases hdelta
    | some delta' => exact ⟨Option.some.inj hdelta, hleft⟩

end Deltas

end Parser

/-- Whatever generator it draws from, the parser answers alike. -/
theorem interchangeable (env : Environment) (ids : RandomIds) :
    (ModelServer.Gemma4ToolParser env).Interchangeable
      (ModelServer.Gemma4ToolParser (Parser.redrawing env ids)) Parser.SameButIds where
  parsingConfig := rfl
  parseChunk h chunk finishReason := Parser.parseChunk_sameButIds env ids h chunk finishReason
  drainPendingDelta h := Parser.parseChunk_sameButIds env ids h [] .none

end ModelServer.Gemma4ToolParser
