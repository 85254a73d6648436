import ModelServer.Minicpm5ToolParser

namespace ModelServer.Minicpm5ToolParser

open Occurrence DelimitedWalk
open Qwen3CoderToolParser.Impl (orNullopt)

section Delimiters

/-- What each state searches for. -/
def delimiters : State → Delimiters Byte
  | .content => .single FUNCTION_START_TAG (by decide)
  | .insideFunctionName => .single XML_TAG_END (by decide)
  | .insideFunction =>
    { marks := [PARAM_START_TAG, FUNCTION_END_TAG]
      nonempty := by decide
      separated := by decide }
  | .insideParamName => .single XML_TAG_END (by decide)
  | .insideParam => .single PARAM_END_TAG (by decide)
  | .afterFunction => .single FUNCTION_END_TAG (by decide)

end Delimiters

section Walk

variable (rj : RapidJson) (types : ToolsParameterTypeMap)

/-- The end of a function is noticed and passed at once. -/
def walk : DelimitedWalk Core Byte (Str × Str) where
  delimiters c := delimiters c.currentState
  fire c text m :=
    match c.currentState with
    | .content => (c.openFunction, [])
    | .insideFunctionName => (c.nameFunction text, [])
    | .insideFunction => if m = PARAM_START_TAG then (c.openParam, []) else (c.closeFunction, [c.invocation rj])
    | .insideParamName => (c.nameParam text, [])
    | .insideParam => (c.closeParam rj types text, [])
    | .afterFunction => (c.closeFunction, [c.invocation rj])

def nameOf (c : Core) : Str := c.currentFunction.name

namespace Impl

/-- The text after the last processed position. -/
def unread (p : Impl) : Str := p.streamContent.drop p.lastProcessedPosition

/-- Between two chunks: the position is in the text, and no function is about to end. -/
structure Sound (p : Impl) : Prop where
  inside : p.lastProcessedPosition ≤ p.streamContent.length
  waiting : p.currentState ≠ .afterFunction

variable {p : Impl} {m : Str} {i : Nat} {ds : Delimiters Byte}

theorem find_of_earliest (h : Earliest ds p.unread m i) : p.find m = some (p.lastProcessedPosition + i) := find_earliest h

theorem find_of_quiet (h : ∀ m ∈ ds.marks, ∀ i, ¬ At m p.unread i) (hm : m ∈ ds.marks) : p.find m = none := find_quiet h hm

theorem upTo_earliest (p : Impl) (i : Nat) : p.upTo (p.lastProcessedPosition + i) = p.unread.take i := by
  rw [upTo, Nat.add_sub_cancel_left]
  rfl

theorem unread_passTo (p : Impl) (core : Core) (i n : Nat) :
    (p.passTo core (p.lastProcessedPosition + i + n)).unread = p.unread.drop (i + n) := by
  show p.streamContent.drop (p.lastProcessedPosition + i + n) = (p.streamContent.drop p.lastProcessedPosition).drop (i + n)
  rw [List.drop_drop, Nat.add_assoc]

theorem Sound.passTo (h : p.Sound) (hfirst : Earliest ds p.unread m i) {core : Core} (hcore : core.currentState ≠ .afterFunction) :
    (p.passTo core (p.lastProcessedPosition + i + m.length)).Sound where
  inside := by
    have hlength := hfirst.length_le
    have hinside := h.inside
    rw [unread, List.length_drop] at hlength
    show p.lastProcessedPosition + i + m.length ≤ p.streamContent.length
    omega
  waiting := hcore

variable (ids : RandomIds)

theorem parseBody_again {calls calls' : List ToolCall} {q : Impl} (h : advance rj ids types p calls = (q, calls'))
    (hstate : q.currentState ≠ p.currentState) : parseBody rj ids types (p, calls) = .inl (q, calls') := by
  rw [parseBody, h, if_neg hstate]

theorem parseBody_waits (hp : p.Sound) (hquiet : (walk rj types).Quiet p.toCore p.unread) (calls : List ToolCall) :
    parseBody rj ids types (p, calls) = .inr (p, calls) := by
  have hnone : ∀ m ∈ (delimiters p.currentState).marks, p.find m = none := fun m hm => find_of_quiet hquiet hm
  have hsame : advance rj ids types p calls = (p, calls) := by
    rw [advance]
    cases hstate : p.currentState with
    | content =>
      rw [hstate] at hnone
      simp only [handleInsideContentState, hnone FUNCTION_START_TAG List.mem_cons_self]
    | insideFunctionName =>
      rw [hstate] at hnone
      simp only [handleInsideFunctionNameState, hnone XML_TAG_END List.mem_cons_self]
    | insideFunction =>
      rw [hstate] at hnone
      simp only [handleInsideFunctionState, hnone PARAM_START_TAG List.mem_cons_self,
        hnone FUNCTION_END_TAG (List.mem_cons_of_mem _ List.mem_cons_self)]
    | insideParamName =>
      rw [hstate] at hnone
      simp only [handleInsideParamNameState, hnone XML_TAG_END List.mem_cons_self]
    | insideParam =>
      rw [hstate] at hnone
      simp only [handleInsideParamState, hnone PARAM_END_TAG List.mem_cons_self]
    | afterFunction => exact absurd hstate hp.waiting
  rw [parseBody, hsame, if_pos rfl]

/-- The function ends in two steps: it is noticed first, and then the call is complete. -/
theorem exits_end (hstate : p.currentState = .insideFunction) (hend : p.find FUNCTION_END_TAG = some (p.lastProcessedPosition + i))
    (hparam : p.find PARAM_START_TAG = none ∨ ∃ j, i < j ∧ p.find PARAM_START_TAG = some (p.lastProcessedPosition + j))
    (calls : List ToolCall) {r : Impl × List ToolCall}
    (hrest : Loop.Exits (parseBody rj ids types)
      ({ p.passTo p.toCore.closeFunction (p.lastProcessedPosition + i + FUNCTION_END_TAG.length) with drawnIds := p.drawnIds + 1 },
        calls ++ [⟨ids.draw p.drawnIds, (p.toCore.invocation rj).1, (p.toCore.invocation rj).2⟩]) r) :
    Loop.Exits (parseBody rj ids types) (p, calls) r := by
  have hnoticed : advance rj ids types p calls = (p.passTo p.toCore.endFunction p.lastProcessedPosition, calls) := by
    rw [advance, hstate]
    dsimp only
    rw [handleInsideFunctionState, hend]
    obtain hnone | ⟨j, hlt, hsome⟩ := hparam
    · rw [hnone]
    · rw [hsome]
      dsimp only
      rw [if_neg (by omega)]
  refine .again (parseBody_again rj types ids hnoticed ?_) (.again (parseBody_again rj types ids rfl ?_) ?_)
  · rw [hstate]
    exact fun h => by cases h
  · exact fun h => by cases h
  · have hfound : (p.passTo p.toCore.endFunction p.lastProcessedPosition).find FUNCTION_END_TAG =
        some (p.lastProcessedPosition + i) := hend
    simp only [hfound]
    exact hrest

/-- One step takes the loop past a delimiter. -/
theorem passes_step {calls : List ToolCall} (core : Core) (hp : p.Sound) (hfirst : Earliest (delimiters p.currentState) p.unread m i)
    (hstep : advance rj ids types p calls = (p.passTo core (p.lastProcessedPosition + i + m.length), calls))
    (hchange : core.currentState ≠ p.currentState) (hwaiting : core.currentState ≠ .afterFunction)
    (hfire : (walk rj types).fire p.toCore (p.unread.take i) m = (core, [])) :
    ∃ q new, (∀ r, Loop.Exits (parseBody rj ids types) (q, calls ++ new) r → Loop.Exits (parseBody rj ids types) (p, calls) r) ∧
      q.Sound ∧ q.toCore = ((walk rj types).fire p.toCore (p.unread.take i) m).1 ∧ q.unread = p.unread.drop (i + m.length) ∧
      new.map ToolCall.invocation = ((walk rj types).fire p.toCore (p.unread.take i) m).2 := by
  refine ⟨p.passTo core (p.lastProcessedPosition + i + m.length), [], ?_, hp.passTo hfirst hwaiting, ?_, unread_passTo p core i _, ?_⟩
  · intro r hr
    rw [List.append_nil] at hr
    exact .again (parseBody_again rj types ids hstep hchange) hr
  · rw [hfire]
    rfl
  · rw [hfire]
    rfl

theorem passesDelimiters : PassesDelimiters (parseBody rj ids types) (walk rj types) Impl.toCore unread Sound where
  waits hp hquiet calls := parseBody_waits rj types ids hp hquiet calls
  passes := by
    intro p m i hp hfirst calls
    have hfound := find_of_earliest hfirst
    have hmem : m ∈ (delimiters p.currentState).marks := hfirst.mem
    cases hstate : p.currentState with
    | content =>
      rw [hstate] at hmem
      obtain rfl := List.mem_singleton.mp hmem
      refine passes_step rj types ids p.toCore.openFunction hp hfirst ?_ (by rw [hstate]; nofun) nofun ?_
      · simp only [advance, hstate, handleInsideContentState, hfound]
      · simp only [walk, hstate]
    | insideFunctionName =>
      rw [hstate] at hmem
      obtain rfl := List.mem_singleton.mp hmem
      refine passes_step rj types ids (p.toCore.nameFunction (p.unread.take i)) hp hfirst ?_ (by rw [hstate]; nofun) nofun ?_
      · simp only [advance, hstate, handleInsideFunctionNameState, hfound, upTo_earliest]
      · simp only [walk, hstate]
    | insideFunction =>
      have hother : ∀ m' ∈ (delimiters p.currentState).marks, m' ≠ m →
          p.find m' = none ∨ ∃ j, i < j ∧ p.find m' = some (p.lastProcessedPosition + j) := fun m' hm' hne => find_later hfirst hm' hne
      rw [hstate] at hmem hother
      obtain rfl | hmem := List.mem_cons.mp hmem
      · refine passes_step rj types ids p.toCore.openParam hp hfirst ?_ (by rw [hstate]; nofun) nofun ?_
        · simp only [advance, hstate, handleInsideFunctionState, hfound]
          obtain hnone | ⟨j, hlt, hsome⟩ := hother FUNCTION_END_TAG (List.mem_cons_of_mem _ List.mem_cons_self) (by decide)
          · rw [hnone]
          · rw [hsome]
            dsimp only
            rw [if_pos (by omega)]
        · simp only [walk, hstate, if_pos]
      · obtain rfl := List.mem_singleton.mp hmem
        have hfire : (walk rj types).fire p.toCore (p.unread.take i) FUNCTION_END_TAG = (p.toCore.closeFunction, [p.toCore.invocation rj]) := by
          simp only [walk, hstate]
          exact if_neg (by decide)
        have hsound : (p.passTo p.toCore.closeFunction (p.lastProcessedPosition + i + FUNCTION_END_TAG.length)).Sound :=
          hp.passTo hfirst nofun
        refine ⟨_, _, fun r hr => exits_end rj types ids hstate hfound (hother PARAM_START_TAG List.mem_cons_self (by decide)) calls hr,
          ⟨hsound.inside, hsound.waiting⟩, ?_, unread_passTo p p.toCore.closeFunction i _, ?_⟩
        · rw [hfire]
          rfl
        · rw [hfire]
          rfl
    | insideParamName =>
      rw [hstate] at hmem
      obtain rfl := List.mem_singleton.mp hmem
      refine passes_step rj types ids (p.toCore.nameParam (p.unread.take i)) hp hfirst ?_ (by rw [hstate]; nofun) nofun ?_
      · simp only [advance, hstate, handleInsideParamNameState, hfound, upTo_earliest]
      · simp only [walk, hstate]
    | insideParam =>
      rw [hstate] at hmem
      obtain rfl := List.mem_singleton.mp hmem
      refine passes_step rj types ids (p.toCore.closeParam rj types (p.unread.take i)) hp hfirst ?_ (by rw [hstate]; nofun) nofun ?_
      · simp only [advance, hstate, handleInsideParamState, hfound, upTo_earliest]
      · simp only [walk, hstate]
    | afterFunction => exact absurd hstate hp.waiting

/-- What keeps the loop going: a step through a tag reads it, and the end of a function is only noticed where it is. -/
structure Going (p : Impl) : Prop where
  inside : p.lastProcessedPosition ≤ p.streamContent.length
  ending : p.currentState = .afterFunction → ∃ pos, p.find FUNCTION_END_TAG = some pos

theorem Going.find_le (h : p.Going) {tag : Str} (htag : tag ≠ []) {pos : Nat} (hpos : p.find tag = some pos) :
    p.lastProcessedPosition < pos + tag.length ∧ pos + tag.length ≤ p.streamContent.length := by
  obtain ⟨i, hi, rfl⟩ := Option.map_eq_some_iff.mp hpos
  have hat := ((indexOf?_eq_some_iff htag).mp hi).1.length_le htag
  have hne := List.length_pos_iff.mpr htag
  have hinside := h.inside
  rw [List.length_drop] at hat
  omega

theorem Going.step (h : p.Going) {core : Core} {tag : Str} (htag : tag ≠ []) {pos : Nat} (hpos : p.find tag = some pos)
    (hcore : core.currentState ≠ .afterFunction) :
    (p.passTo core (pos + tag.length)).Going ∧ (p.passTo core (pos + tag.length)).remaining < p.remaining := by
  have hle := h.find_le htag hpos
  refine ⟨⟨hle.2, fun hafter => absurd hafter hcore⟩, ?_⟩
  have hflag : (if core.currentState = .insideFunction then 1 else 0) ≤ 1 := by
    split
    · exact Nat.le_refl 1
    · exact Nat.zero_le 1
  show 2 * (p.streamContent.length - (pos + tag.length)) + (if core.currentState = .insideFunction then 1 else 0) <
    2 * (p.streamContent.length - p.lastProcessedPosition) + _
  omega

theorem parseBody_inl {s t : Impl × List ToolCall} (h : parseBody rj ids types s = .inl t) :
    advance rj ids types s.1 s.2 = t ∧ t.1.currentState ≠ s.1.currentState := by
  rw [parseBody] at h
  split at h
  next => cases h
  next hchange =>
    cases Sum.inl.inj h
    exact ⟨rfl, hchange⟩

theorem parseBody_goes {s t : Impl × List ToolCall} (hs : s.1.Going) (h : parseBody rj ids types s = .inl t) :
    t.1.Going ∧ t.1.remaining < s.1.remaining := by
  obtain ⟨p, calls⟩ := s
  obtain ⟨hstep, hchange⟩ := parseBody_inl rj types ids h
  subst hstep
  dsimp only at hs hchange ⊢
  rw [advance] at hchange ⊢
  cases hstate : p.currentState with
  | content =>
    simp only [hstate, handleInsideContentState] at hchange ⊢
    cases hfind : p.find FUNCTION_START_TAG with
    | none => exact absurd (by rw [hfind]; exact hstate) hchange
    | some pos => exact hs.step (by decide) hfind nofun
  | insideFunctionName =>
    simp only [hstate, handleInsideFunctionNameState] at hchange ⊢
    cases hfind : p.find XML_TAG_END with
    | none => exact absurd (by rw [hfind]; exact hstate) hchange
    | some pos => exact hs.step (by decide) hfind nofun
  | insideFunction =>
    have hends : ∀ pos, p.find FUNCTION_END_TAG = some pos → (p.passTo p.toCore.endFunction p.lastProcessedPosition).Going ∧
        (p.passTo p.toCore.endFunction p.lastProcessedPosition).remaining < p.remaining := by
      intro pos hpos
      refine ⟨⟨hs.inside, fun _ => ⟨pos, hpos⟩⟩, ?_⟩
      rw [remaining, remaining, hstate]
      exact Nat.lt_succ_self _
    simp only [hstate, handleInsideFunctionState] at hchange ⊢
    cases hend : p.find FUNCTION_END_TAG with
    | none =>
      cases hparam : p.find PARAM_START_TAG with
      | none => exact absurd (by rw [hend, hparam]; exact hstate) hchange
      | some paramStart => exact hs.step (by decide) hparam nofun
    | some funcEnd =>
      cases hparam : p.find PARAM_START_TAG with
      | none => exact hends funcEnd hend
      | some paramStart =>
        dsimp only
        split
        next => exact hs.step (by decide) hparam nofun
        next => exact hends funcEnd hend
  | insideParamName =>
    simp only [hstate, handleInsideParamNameState] at hchange ⊢
    cases hfind : p.find XML_TAG_END with
    | none => exact absurd (by rw [hfind]; exact hstate) hchange
    | some pos => exact hs.step (by decide) hfind nofun
  | insideParam =>
    simp only [hstate, handleInsideParamState] at hchange ⊢
    cases hfind : p.find PARAM_END_TAG with
    | none => exact absurd (by rw [hfind]; exact hstate) hchange
    | some pos => exact hs.step (by decide) hfind nofun
  | afterFunction =>
    obtain ⟨pos, hpos⟩ := hs.ending hstate
    simp only [handleInsideAfterFunctionState, hpos]
    have hclosed : p.toCore.closeFunction.currentState ≠ .afterFunction := nofun
    obtain ⟨hgoing, hlt⟩ := hs.step (by decide) hpos hclosed
    exact ⟨⟨hgoing.inside, hgoing.ending⟩, hlt⟩

theorem exits_parseAll (hp : p.Sound) : Loop.Exits (parseBody rj ids types) (p, []) (p.parseAll rj ids types) :=
  Loop.run_exits_keeping (fun s => s.1.remaining) (fun _ _ hs h => parseBody_goes rj types ids hs h) _
    ⟨hp.inside, fun hafter => absurd hafter hp.waiting⟩ (Nat.lt_succ_self _)

theorem Sound.append (hp : p.Sound) (chunk : Str) : (p.append chunk).Sound ∧ (p.append chunk).unread = p.unread ++ chunk := by
  refine ⟨⟨?_, hp.waiting⟩, List.drop_append_of_le_length hp.inside⟩
  have hinside := hp.inside
  show p.lastProcessedPosition ≤ (p.streamContent ++ chunk).length
  rw [List.length_append]
  omega

/-- The inner parser goes from tag to tag, whatever the chunks. -/
def follows : (streamParser rj ids types).Follows (walk rj types) nameOf where
  core p := p.toCore
  unread := unread
  Sound := Sound
  reads := by
    intro p chunk rest t out hp hchunk hreads
    obtain ⟨happended, hunread⟩ := hp.append chunk
    have hreads' : (walk rj types).Reads (p.append chunk).toCore (p.append chunk).unread t rest out := by
      rw [hunread]
      exact hreads
    have hparsed := (passesDelimiters rj types ids).reads (exits_parseAll rj types ids happended) happended hreads'
    have hnonempty : chunk.isEmpty = false := by simpa using hchunk
    show Option.map _ (parseChunk rj ids types p chunk).1 = _ ∧ Sound (parseChunk rj ids types p chunk).2 ∧
      (parseChunk rj ids types p chunk).2.toCore = t ∧ unread (parseChunk rj ids types p chunk).2 = rest
    rw [parseChunk, hnonempty, if_neg Bool.false_ne_true]
    exact hparsed
  named := by
    intro p
    show getCurrentFunctionName p = _
    rw [getCurrentFunctionName, nameOf]
    simp only [List.isEmpty_iff]
  draws := fun hp => ⟨⟨hp.inside, hp.waiting⟩, rfl, rfl⟩

end Impl

end Walk

section Written

/-- The tags of a call. -/
def tags : MarkupTags where
  parameterStart := PARAM_START_TAG
  nameEnd := XML_TAG_END
  parameterEnd := PARAM_END_TAG
  functionEnd := FUNCTION_END_TAG

/-- `<function name="N">(<param name="K">V</param>)*</function>` after a text without a call. -/
structure WrittenCall where
  gap : Str := []
  name : Str
  parameters : List (WrittenParameter tags) := []
  closing : Str := []
  gap_quiet : ¬ FUNCTION_START_TAG <:+: gap
  name_quiet : ¬ XML_TAG_END <:+: name
  closing_quiet : ¬ PARAM_START_TAG <:+: closing ∧ ¬ FUNCTION_END_TAG <:+: closing

namespace WrittenCall

variable (rj : RapidJson) (types : ToolsParameterTypeMap) (call : WrittenCall)

def legs : List (Str × Str) :=
  (call.gap, FUNCTION_START_TAG) :: (call.name, XML_TAG_END) ::
    (call.parameters.flatMap WrittenParameter.legs ++ [(call.closing, FUNCTION_END_TAG)])

/-- The function that is built of the parameters, one after the other. -/
def functool : MarkupFunctool :=
  MarkupFunctool.addParameters (addParameterToCurrentFunctionDoc rj types) { name := call.name } call.parameters

def invocation : Str × Str := (call.name, (call.functool rj types).argumentsAsString rj)

end WrittenCall

end Written

section Walk

variable (rj : RapidJson) (types : ToolsParameterTypeMap)

theorem clean_delimiters (s : State) : ∀ m ∈ (delimiters s).marks, ∀ b ∈ (delimiters s).marks, Clean m b := by
  cases s <;> decide

theorem walks_leg {c d t : Core} {s : State} {gap m : Str} {legs : List (Str × Str)} {o out : List (Str × Str)}
    (hs : c.currentState = s) (hm : m ∈ (delimiters s).marks) (hquiet : ∀ b ∈ (delimiters s).marks, ¬ b <:+: gap)
    (hfire : (walk rj types).fire c gap m = (d, o)) (h : (walk rj types).Walks d legs t out) :
    (walk rj types).Walks c ((gap, m) :: legs) t (o ++ out) := by
  subst hs
  exact .leg hm (clean_delimiters _ m hm) hquiet hfire h

theorem addParameter_name (f : MarkupFunctool) (key value : Str) :
    (addParameterToCurrentFunctionDoc rj types f key value).name = f.name := f.addMemberOnce_name _ _

/-- Inside of a function, between two parameters. -/
structure Inside (c : Core) (f : MarkupFunctool) : Prop where
  state : c.currentState = .insideFunction
  function : c.currentFunction = f

theorem walks_parameter {c : Core} {f : MarkupFunctool} (hc : Inside c f) (parameter : WrittenParameter tags) :
    ∃ d, Inside d (addParameterToCurrentFunctionDoc rj types f parameter.key parameter.value) ∧
      (walk rj types).Walks c parameter.legs d [] := by
  have hstart : (walk rj types).fire c parameter.gap PARAM_START_TAG = (c.openParam, []) := by
    simp only [walk, hc.state, if_pos]
  refine ⟨(c.openParam.nameParam parameter.key).closeParam rj types parameter.value, ⟨rfl, ?_⟩,
    walks_leg rj types hc.state List.mem_cons_self ?_ hstart (walks_leg rj types rfl List.mem_cons_self ?_ rfl
      (walks_leg rj types rfl List.mem_cons_self ?_ rfl (.stays _)))⟩
  · show addParameterToCurrentFunctionDoc rj types c.currentFunction parameter.key parameter.value = _
    rw [hc.function]
  · exact List.forall_mem_cons.mpr ⟨parameter.gap_quiet.1, List.forall_mem_singleton.mpr parameter.gap_quiet.2⟩
  · exact List.forall_mem_singleton.mpr parameter.key_quiet
  · exact List.forall_mem_singleton.mpr parameter.value_quiet

/-- Outside of calls. -/
structure Idle (c : Core) : Prop where
  state : c.currentState = .content
  function : c.currentFunction = {}

theorem functool_name (call : WrittenCall) : (call.functool rj types).name = call.name :=
  MarkupFunctool.addParameters_name (addParameter_name rj types) _ _

theorem walks_call {c : Core} (hc : Idle c) (call : WrittenCall) :
    ∃ d, Idle d ∧ (walk rj types).Walks c call.legs d [call.invocation rj types] := by
  have hopen : (walk rj types).fire c call.gap FUNCTION_START_TAG = (c.openFunction, []) := by simp only [walk, hc.state]
  have hnamed : Inside (c.openFunction.nameFunction call.name) { name := call.name } := by
    refine ⟨rfl, ?_⟩
    show { c.currentFunction with name := call.name } = _
    rw [hc.function]
  obtain ⟨d, hd, hparameters⟩ := walks_parameters (walks_parameter rj types) hnamed call.parameters
  have hclose : (walk rj types).fire d call.closing FUNCTION_END_TAG = (d.closeFunction, [call.invocation rj types]) := by
    have hinvocation : d.invocation rj = call.invocation rj types := by
      have hfunction : d.currentFunction = call.functool rj types := hd.function
      rw [Core.invocation, hfunction, functool_name]
      rfl
    simp only [walk, hd.state, hinvocation]
    exact if_neg (by decide)
  refine ⟨d.closeFunction, ⟨rfl, rfl⟩, walks_leg rj types hc.state List.mem_cons_self ?_ hopen
    (walks_leg rj types rfl List.mem_cons_self ?_ rfl (hparameters.append
      (walks_leg rj types hd.state (List.mem_cons_of_mem _ List.mem_cons_self) ?_ hclose (.stays _))))⟩
  · exact List.forall_mem_singleton.mpr call.gap_quiet
  · exact List.forall_mem_singleton.mpr call.name_quiet
  · exact List.forall_mem_cons.mpr ⟨call.closing_quiet.1, List.forall_mem_singleton.mpr call.closing_quiet.2⟩

/-- Where the name of the open function is known, up to its end. -/
structure Named (name : Str) (c : Core) : Prop where
  state : c.currentState = .insideFunction ∨ c.currentState = .insideParamName ∨ c.currentState = .insideParam
  name_eq : c.currentFunction.name = name

theorem Named.fire {name : Str} {c : Core} (hc : Named name c) {m : Str} (hm : m ≠ FUNCTION_END_TAG)
    (hmem : m ∈ (delimiters c.currentState).marks) (gap : Str) :
    Named name ((walk rj types).fire c gap m).1 ∧ ((walk rj types).fire c gap m).2 = [] := by
  obtain ⟨hstate | hstate | hstate, hname⟩ := hc
  · rw [hstate] at hmem
    have hfire : (walk rj types).fire c gap m = (c.openParam, []) := by
      simp only [walk, hstate]
      exact if_pos ((List.mem_cons.mp hmem).resolve_right fun h => hm (List.mem_singleton.mp h))
    rw [hfire]
    exact ⟨⟨.inr (.inl rfl), hname⟩, rfl⟩
  · have hfire : (walk rj types).fire c gap m = (c.nameParam gap, []) := by simp only [walk, hstate]
    rw [hfire]
    exact ⟨⟨.inr (.inr rfl), hname⟩, rfl⟩
  · have hfire : (walk rj types).fire c gap m = (c.closeParam rj types gap, []) := by simp only [walk, hstate]
    rw [hfire]
    exact ⟨⟨.inl rfl, (addParameter_name rj types _ _ _).trans hname⟩, rfl⟩

theorem Named.within {name : Str} {c u : Core} {parameters : List (WrittenParameter tags)} {part : List (Str × Str)}
    {out : List (Str × Str)} (hc : Named name c) (hpart : part <+: parameters.flatMap WrittenParameter.legs)
    (h : (walk rj types).Walks c part u out) : Named name u ∧ out = [] := by
  refine h.keeps (fun s gap m hs hmem hmark => hs.fire rj types ?_ hmark gap) hc
  rcases WrittenParameter.mark_of_mem (hpart.subset hmem) with rfl | rfl | rfl
  · decide
  · decide
  · decide

theorem within_call {c u : Core} {call : WrittenCall} {part missing : List (Str × Str)} {out : List (Str × Str)} (hc : Idle c)
    (hpart : call.legs = part ++ missing) (hne : missing ≠ []) (hwalk : (walk rj types).Walks c part u out) :
    out = [] ∧ nameOf u = if 2 ≤ part.length then (call.invocation rj types).1 else [] := by
  have hopen : (walk rj types).fire c call.gap FUNCTION_START_TAG = (c.openFunction, []) := by simp only [walk, hc.state]
  have hnothing : c.currentFunction.name = [] := by rw [hc.function]
  match part with
  | [] =>
    cases hwalk
    exact ⟨rfl, hnothing⟩
  | [leg] =>
    obtain ⟨rfl, -⟩ := List.cons.inj hpart
    obtain ⟨later, rfl, hrest⟩ := hwalk.after hopen
    cases hrest
    exact ⟨rfl, hnothing⟩
  | leg :: leg' :: part =>
    rw [WrittenCall.legs, List.cons_append, List.cons_append, List.cons.injEq, List.cons.injEq] at hpart
    obtain ⟨rfl, rfl, hpart⟩ := hpart
    obtain ⟨later, rfl, hrest⟩ := hwalk.after hopen
    have hname : (walk rj types).fire c.openFunction call.name XML_TAG_END = (c.openFunction.nameFunction call.name, []) := rfl
    obtain ⟨later, rfl, hrest⟩ := hrest.after hname
    have hnamed : Named call.name (c.openFunction.nameFunction call.name) := ⟨.inl rfl, rfl⟩
    obtain ⟨hu, rfl⟩ := hnamed.within rj types (prefix_of_lacking hpart hne) hrest
    exact ⟨rfl, hu.name_eq⟩

def callLegs : CallLegs (walk rj types) nameOf WrittenCall where
  legs := WrittenCall.legs
  opening := 2
  invocation := WrittenCall.invocation rj types
  Idle := Idle
  unnamed := by
    intro c hc
    rw [nameOf, hc.function]
  nonempty := by
    intro call h
    have hlength := congrArg List.length h
    rw [WrittenCall.legs, legsText_cons, List.length_append, List.length_append] at hlength
    have hpos : 0 < FUNCTION_START_TAG.length := by decide
    have hzero : call.gap.length + (FUNCTION_START_TAG.length + _) = 0 := hlength
    omega
  opening_le := fun call => by
    rw [WrittenCall.legs, List.length_cons, List.length_cons]
    omega
  walks := fun hc call => walks_call rj types hc call
  within := fun hc hpart hne hwalk => within_call rj types hc hpart hne hwalk

end Walk

/-- Calls one after the other, and a text without a call after them. -/
structure WrittenText where
  calls : List WrittenCall
  tail : Str := []
  some_call : calls ≠ []
  tail_quiet : ¬ FUNCTION_START_TAG <:+: tail

namespace WrittenText

variable (rj : RapidJson) (ids : RandomIds) (toolSchemas : ToolsSchemas) (written : WrittenText)

def text : Str := legsText (written.calls.flatMap WrittenCall.legs) ++ written.tail

theorem quiet_tail {c : Core} (hc : Idle c) (types : ToolsParameterTypeMap) : (walk rj types).Quiet c written.tail := by
  intro m hm i hat
  have hmem : m ∈ (delimiters c.currentState).marks := hm
  rw [hc.state] at hmem
  rw [List.mem_singleton.mp hmem] at hat
  exact written.tail_quiet (infix_iff_at.mpr ⟨i, hat⟩)

/-- Where the calls begin and are named. -/
noncomputable def timeline : CallTimeline :=
  ((callLegs rj (createToolsParametersTypesMap toolSchemas)).spoken (s := {}) ⟨rfl, rfl⟩ written.calls written.tail
    fun hc => written.quiet_tail rj hc _).timeline

/-- The calls that the inner parser makes of the whole text. -/
def wholeCalls : List (Str × Str) :=
  ((Impl.parseChunk rj ids (createToolsParametersTypesMap toolSchemas) {} written.text).1.getD []).map ToolCall.invocation

theorem wholeCalls_names : (written.wholeCalls rj ids toolSchemas).map Prod.fst = written.calls.map WrittenCall.name := by
  have hcalls : written.wholeCalls rj ids toolSchemas = written.calls.map (WrittenCall.invocation rj _) :=
    ((callLegs rj _).reassembles (Impl.follows rj _ ids) true "" (p := {}) ⟨Nat.le_refl 0, nofun⟩ ⟨rfl, rfl⟩ rfl written.some_call
      fun hc => written.quiet_tail rj hc _).1
  rw [hcalls, List.map_map]
  rfl

theorem generation_reassembles {chunks : List Str} (htext : chunks.flatten = written.text) (hchunks : ∀ chunk ∈ chunks, chunk ≠ [])
    (hone : (written.timeline rj toolSchemas).OneAtATime chunks) :
    ∃ deltas, generation rj ids toolSchemas chunks = .ok deltas ∧
      (SentDeltas.Reassembles (written.wholeCalls rj ids toolSchemas) (toolCallDeltas deltas) ↔
        ∀ i < written.calls.length, i = 0 ∨ (written.timeline rj toolSchemas).NamedBefore chunks i) := by
  obtain ⟨hcalls, hall⟩ := (callLegs rj _).reassembles (Impl.follows rj _ ids) true
    "Minicpm5ToolParser: for streaming expected one tool call" (p := {}) ⟨Nat.le_refl 0, nofun⟩ ⟨rfl, rfl⟩ rfl written.some_call
    fun hc => written.quiet_tail rj hc _
  obtain ⟨deltas, hdeltas, hiff⟩ := hall chunks htext hchunks hone
  refine ⟨deltas, hdeltas, ?_⟩
  have hwhole : written.wholeCalls rj ids toolSchemas = _ := hcalls
  rw [hwhole, hiff]
  refine forall_congr' fun i => forall_congr' fun _ => or_congr_left ?_
  exact and_iff_right rfl

end WrittenText

end ModelServer.Minicpm5ToolParser
