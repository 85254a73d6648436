import ModelServer.Qwen3CoderToolParser

namespace ModelServer.Qwen3CoderToolParser

open Occurrence

/-- The delimiters a state waits for, the transport markers among them. -/
def marks : State → List Str
  | .content => [TOOL_START_TAG, FUNCTION_NAME_TAG]
  | .insideToolCall => [FUNCTION_NAME_TAG, TOOL_END_TAG, TOOL_START_TAG]
  | .insideFunctionName => [XML_TAG_END, TOOL_END_TAG, TOOL_START_TAG]
  | .insideFunction => [PARAMETER_NAME_TAG, FUNCTION_END_TAG, TOOL_END_TAG, TOOL_START_TAG]
  | .insideParameterName => [XML_TAG_END, TOOL_END_TAG, TOOL_START_TAG]
  | .insideParameter => [PARAMETER_END_TAG, TOOL_END_TAG, TOOL_START_TAG]
  | .afterFunction => [TOOL_END_TAG, TOOL_START_TAG]

/-- No delimiter of a state can be completed inside another one. -/
theorem marks_separated (s : State) : ∀ a ∈ marks s, ∀ b ∈ marks s, Separated a b := by
  cases s <;> decide

def delimiters (s : State) : Delimiters Byte where
  marks := marks s
  nonempty := by cases s <;> decide
  separated := marks_separated s

/-- What `<tool_call>` begins cannot be the rest of any delimiter. -/
theorem toolStart_clean (s : State) : ∀ b ∈ (delimiters s).marks, Clean TOOL_START_TAG b := by
  cases s <;> decide

theorem toolStart_mem (s : State) : TOOL_START_TAG ∈ (delimiters s).marks := by
  cases s <;> decide

theorem toolEnd_mem {s : State} (hc : s ≠ .content) : TOOL_END_TAG ∈ (delimiters s).marks := by
  cases s <;> first | decide | exact absurd rfl hc

namespace Impl

variable (rj : RapidJson) (ids : RandomIds) (types : ToolsParameterTypeMap)

def unread (p : Impl) : Str := p.streamContent.drop p.lastProcessedPosition

/-- What the current state does at its delimiter `m`, found `i` bytes into the unread text. -/
def fire (p : Impl) (m : Str) (i : Nat) (toolCalls : List ToolCall) : Impl × List ToolCall :=
  let pos := p.lastProcessedPosition + i
  match p.currentState with
  | .content =>
    (if m = TOOL_START_TAG then p.openToolCall pos else p.openBareFunction pos, toolCalls)
  | .afterFunction =>
    if m = TOOL_END_TAG then (p.closeToolCall pos, toolCalls ++ p.completedCall rj ids)
    else (p.abort pos, toolCalls)
  | state =>
    (if m = TOOL_START_TAG then p.abort pos
      else if m = TOOL_END_TAG then p.abort (pos + TOOL_END_TAG.length)
      else
        match state with
        | .insideToolCall => p.openFunction pos
        | .insideFunctionName => p.nameFunction pos
        | .insideFunction =>
          if m = PARAMETER_NAME_TAG then p.openParameter pos else p.closeFunction pos
        | .insideParameterName => p.nameParameter pos
        | _ => p.closeParameter rj types pos, toolCalls)

theorem find_eq_map (p : Impl) (tag : Str) :
    p.find tag = (indexOf? tag p.unread).map (p.lastProcessedPosition + ·) := rfl

/-- At an earliest delimiter, every other delimiter of the state is later or absent. -/
theorem find_earliest {p : Impl} {m : Str} {i : Nat}
    (h : Earliest (delimiters p.currentState) p.unread m i) :
    p.find m = some (p.lastProcessedPosition + i) := by
  rw [find_eq_map, h.indexOf?_eq]
  rfl

theorem find_later {p : Impl} {m m' : Str} {i : Nat}
    (h : Earliest (delimiters p.currentState) p.unread m i)
    (hm' : m' ∈ marks p.currentState) (hne : m' ≠ m) :
    posLt (some (p.lastProcessedPosition + i)) (p.find m') = true := by
  rw [find_eq_map]
  rcases h.indexOf?_other hm' hne with hn | ⟨j, hj, he⟩
  · rw [hn]
    rfl
  · rw [he]
    simpa [posLt] using hj

theorem find_quiet {p : Impl}
    (h : ∀ m ∈ marks p.currentState, ∀ i, ¬ At m p.unread i)
    {m : Str} (hm : m ∈ marks p.currentState) : p.find m = none := by
  rw [find_eq_map, (indexOf?_eq_none_iff ((delimiters p.currentState).nonempty m hm)).mpr (h m hm)]
  rfl

theorem abortPosition_start {p : Impl} {k : Nat} (hs : p.currentState ≠ .content)
    (hstart : p.find TOOL_START_TAG = some k)
    (hclose : posLt (some k) (p.find TOOL_END_TAG) = true)
    (hexp : posLt (some k) p.expected = true) : p.abortPosition = some k := by
  simp [abortPosition, hs, hstart, hexp, posLt_asymm hclose]

theorem abortPosition_end {p : Impl} {k : Nat} (hs : p.currentState ≠ .content)
    (hclose : p.find TOOL_END_TAG = some k)
    (hstart : posLt (some k) (p.find TOOL_START_TAG) = true)
    (hexp : posLt (some k) p.expected = true) :
    p.abortPosition = some (k + TOOL_END_TAG.length) := by
  simp [abortPosition, hs, hclose, hexp, hstart]

theorem abortPosition_none {p : Impl} {k : Nat} (hexp : p.expected = some k)
    (hclose : posLt (p.find TOOL_END_TAG) (some k) = false)
    (hstart : posLt (p.find TOOL_START_TAG) (some k) = false) : p.abortPosition = none := by
  simp [abortPosition, hexp, hclose, hstart]

/-- The tags of the parts of a call are not the transport markers. -/
theorem not_transport : ∀ tag ∈ [FUNCTION_NAME_TAG, XML_TAG_END, PARAMETER_NAME_TAG, FUNCTION_END_TAG, PARAMETER_END_TAG],
    tag ≠ TOOL_START_TAG ∧ tag ≠ TOOL_END_TAG := by
  decide

/-- The expected delimiter comes after every earlier mark of the state. -/
theorem expected_later {p : Impl} {k : Nat}
    (h : ∀ m ∈ marks p.currentState, m ≠ TOOL_START_TAG → m ≠ TOOL_END_TAG →
      posLt (some k) (p.find m) = true)
    (ha : p.currentState = .afterFunction → posLt (some k) (p.find TOOL_END_TAG) = true) :
    posLt (some k) p.expected = true := by
  have hpart (m : Str) (hm : m ∈ [FUNCTION_NAME_TAG, XML_TAG_END, PARAMETER_NAME_TAG, FUNCTION_END_TAG, PARAMETER_END_TAG])
      (hmark : m ∈ marks p.currentState) : posLt (some k) (p.find m) = true :=
    h m hmark (not_transport m hm).1 (not_transport m hm).2
  unfold expected
  cases hs : p.currentState <;> rw [hs] at hpart
  case content => rfl
  case afterFunction => exact ha hs
  case insideFunction =>
    exact posLt_posMin (hpart _ (by simp) (by simp [marks])) (hpart _ (by simp) (by simp [marks]))
  all_goals exact hpart _ (by simp) (by simp [marks])

theorem parseUntilStateChange_of_advance {p q : Impl} {calls calls' : List ToolCall}
    (ha : p.abortPosition = none) (h : advance rj ids types p calls = (q, calls'))
    (hs : p.currentState ≠ q.currentState) :
    parseUntilStateChange rj ids types p calls = (true, q, calls') := by
  simp [parseUntilStateChange, ha, h, hs]

theorem parseUntilStateChange_of_abort {p : Impl} {k : Nat} {calls : List ToolCall}
    (ha : p.abortPosition = some k) :
    parseUntilStateChange rj ids types p calls = (true, p.abort k, calls) := by
  simp [parseUntilStateChange, ha]

section Fires

variable {p : Impl} {m : Str} {i : Nat}
  (h : Earliest (delimiters p.currentState) p.unread m i) (toolCalls : List ToolCall)
include h

theorem fires_content (hc : p.currentState = .content) :
    parseUntilStateChange rj ids types p toolCalls = (true, fire rj ids types p m i toolCalls) := by
  have hk := find_earliest h
  have hm : m ∈ marks p.currentState := h.mem
  have later : ∀ m' ∈ marks p.currentState, m' ≠ m →
      posLt (some (p.lastProcessedPosition + i)) (p.find m') = true := fun _ => find_later h
  have hnone : p.abortPosition = none := by simp [abortPosition, hc]
  rw [hc] at hm later
  simp only [marks, List.mem_cons, List.not_mem_nil, or_false] at hm
  rcases hm with rfl | rfl
  · have hf := later FUNCTION_NAME_TAG (by decide) (by decide)
    exact parseUntilStateChange_of_advance rj ids types hnone
      (by simp [advance, hc, hk, hf]) (by simp [hc])
  · have hf := later TOOL_START_TAG (by decide) (by decide)
    exact parseUntilStateChange_of_advance rj ids types hnone
      (by simp +decide [advance, hc, hk, posLt_asymm hf]) (by simp +decide [hc])

theorem fires_start (hc : p.currentState ≠ .content) (hm : m = TOOL_START_TAG) :
    parseUntilStateChange rj ids types p toolCalls = (true, fire rj ids types p m i toolCalls) := by
  subst hm
  have hend := find_later h (toolEnd_mem hc) (by decide)
  have hexp := expected_later (fun m hm hne _ => find_later h hm hne) (fun _ => hend)
  rw [parseUntilStateChange_of_abort rj ids types (abortPosition_start hc (find_earliest h) hend hexp)]
  cases hs : p.currentState <;> simp_all +decide [fire]

theorem fires_end (hc : p.currentState ≠ .content) (ha : p.currentState ≠ .afterFunction)
    (hm : m = TOOL_END_TAG) :
    parseUntilStateChange rj ids types p toolCalls = (true, fire rj ids types p m i toolCalls) := by
  subst hm
  have hstart := find_later h (toolStart_mem _) (by decide)
  have hexp := expected_later (fun m hm _ hne => find_later h hm hne) (fun hs => absurd hs ha)
  rw [parseUntilStateChange_of_abort rj ids types (abortPosition_end hc (find_earliest h) hstart hexp)]
  cases hs : p.currentState <;> simp_all +decide [fire]

/-- The delimiter the state waits for: no transport marker comes before it. -/
theorem fires_expected (hc : p.currentState ≠ .content) (hstart : m ≠ TOOL_START_TAG)
    (hend : m = TOOL_END_TAG → p.currentState = .afterFunction) :
    parseUntilStateChange rj ids types p toolCalls = (true, fire rj ids types p m i toolCalls) := by
  have hk := find_earliest h
  have hm : m ∈ marks p.currentState := h.mem
  have later : ∀ m' ∈ marks p.currentState, m' ≠ m →
      posLt (some (p.lastProcessedPosition + i)) (p.find m') = true := fun _ => find_later h
  have later_start := posLt_asymm (later _ (toolStart_mem _) (Ne.symm hstart))
  have later_close : posLt (p.find TOOL_END_TAG) (some (p.lastProcessedPosition + i)) = false := by
    by_cases he : m = TOOL_END_TAG
    · subst he
      simp [hk, posLt]
    · exact posLt_asymm (later _ (toolEnd_mem hc) (Ne.symm he))
  have none_of_expected (he : p.expected = some (p.lastProcessedPosition + i)) :=
    abortPosition_none he later_close later_start
  have not_end (hs : p.currentState ≠ .afterFunction) : m ≠ TOOL_END_TAG := fun he => hs (hend he)
  cases hs : p.currentState with
  | content => exact absurd hs hc
  | insideToolCall =>
    have hne := not_end (by simp [hs])
    obtain rfl : m = FUNCTION_NAME_TAG := by simpa [marks, hs, hstart, hne] using hm
    exact parseUntilStateChange_of_advance rj ids types (none_of_expected (by simp [expected, hs, hk]))
      (by simp [advance, hs, hk, hstart, hne]) (by simp [hs, hstart, hne])
  | insideFunctionName =>
    have hne := not_end (by simp [hs])
    obtain rfl : m = XML_TAG_END := by simpa [marks, hs, hstart, hne] using hm
    exact parseUntilStateChange_of_advance rj ids types (none_of_expected (by simp [expected, hs, hk]))
      (by simp [advance, hs, hk, hstart, hne]) (by simp [hs, hstart, hne])
  | insideFunction =>
    have hne := not_end (by simp [hs])
    have htags : FUNCTION_END_TAG ≠ PARAMETER_NAME_TAG := by decide
    rw [hs] at later
    obtain rfl | rfl : m = PARAMETER_NAME_TAG ∨ m = FUNCTION_END_TAG := by simpa [marks, hs, hstart, hne] using hm
    · have hl := later FUNCTION_END_TAG (by simp [marks]) htags
      exact parseUntilStateChange_of_advance rj ids types (none_of_expected (by simp [expected, hs, hk, posMin_left hl]))
        (by simp [advance, hs, hk, hl, hstart, hne]) (by simp [hs, hstart, hne])
    · have hl := later PARAMETER_NAME_TAG (by simp [marks]) htags.symm
      exact parseUntilStateChange_of_advance rj ids types (none_of_expected (by simp [expected, hs, hk, posMin_right hl]))
        (by simp [advance, hs, hk, posLt_asymm hl, hstart, hne, htags]) (by simp [hs, hstart, hne, htags])
  | insideParameterName =>
    have hne := not_end (by simp [hs])
    obtain rfl : m = XML_TAG_END := by simpa [marks, hs, hstart, hne] using hm
    exact parseUntilStateChange_of_advance rj ids types (none_of_expected (by simp [expected, hs, hk]))
      (by simp [advance, hs, hk, hstart, hne]) (by simp [hs, hstart, hne])
  | insideParameter =>
    have hne := not_end (by simp [hs])
    obtain rfl : m = PARAMETER_END_TAG := by simpa [marks, hs, hstart, hne] using hm
    exact parseUntilStateChange_of_advance rj ids types (none_of_expected (by simp [expected, hs, hk]))
      (by simp [advance, hs, hk, hstart, hne]) (by simp [hs, hstart, hne])
  | afterFunction =>
    obtain rfl : m = TOOL_END_TAG := by simpa [marks, hs, hstart] using hm
    exact parseUntilStateChange_of_advance rj ids types (none_of_expected (by simp [expected, hs, hk]))
      (by simp [advance, hs, hk]) (by simp [hs])

end Fires

/-- One pass of the parser: the delimiter that begins first in the unread text decides. -/
theorem parseUntilStateChange_fires {p : Impl} {m : Str} {i : Nat}
    (h : Earliest (delimiters p.currentState) p.unread m i) (toolCalls : List ToolCall) :
    parseUntilStateChange rj ids types p toolCalls = (true, fire rj ids types p m i toolCalls) := by
  by_cases hc : p.currentState = .content
  · exact fires_content rj ids types h toolCalls hc
  by_cases hstart : m = TOOL_START_TAG
  · exact fires_start rj ids types h toolCalls hc hstart
  by_cases hend : m = TOOL_END_TAG → p.currentState = .afterFunction
  · exact fires_expected rj ids types h toolCalls hc hstart hend
  · obtain ⟨hm, ha⟩ := Classical.not_imp.mp hend
    exact fires_end rj ids types h toolCalls hc ha hm

theorem parseUntilStateChange_quiet {p : Impl}
    (h : ∀ m ∈ (delimiters p.currentState).marks, ∀ i, ¬ At m p.unread i)
    (toolCalls : List ToolCall) :
    parseUntilStateChange rj ids types p toolCalls = (false, p, toolCalls) := by
  have hfind := fun m hm => find_quiet h (m := m) hm
  cases hs : p.currentState <;> rw [hs] at hfind
  all_goals
    simp only [marks, List.mem_cons, List.not_mem_nil, or_false, forall_eq_or_imp, forall_eq] at hfind
    simp [parseUntilStateChange, abortPosition, expected, advance, hs, hfind, posLt, posMin]

end Impl

end ModelServer.Qwen3CoderToolParser
