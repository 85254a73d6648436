import ModelServer.OnyxToolParser

namespace ModelServer.OnyxToolParser

open Occurrence DelimitedWalk
open Qwen3CoderToolParser.Impl (orNullopt)

/-- What each state searches for. -/
def delimiters : State → Delimiters Byte
  | .content =>
    { marks := [TOOL_START_TAG, FUNCTION_NAME_TAG]
      nonempty := by decide
      separated := by decide }
  | .insideToolCall => .single FUNCTION_NAME_TAG (by decide)
  | .insideFunctionName => .single NAME_ATTR_END_TAG (by decide)
  | .insideFunction =>
    { marks := [PARAMETER_NAME_TAG, FUNCTION_END_TAG]
      nonempty := by decide
      separated := by decide }
  | .insideParameterName => .single NAME_ATTR_END_TAG (by decide)
  | .insideParameter => .single PARAMETER_END_TAG (by decide)
  | .afterFunction => .single TOOL_END_TAG (by decide)

section Walk

variable (rj : RapidJson) (types : ToolsParameterTypeMap)

def walk : DelimitedWalk Core Byte (Str × Str) where
  delimiters c := delimiters c.currentState
  fire c text m :=
    match c.currentState with
    | .content => (if m = TOOL_START_TAG then c.openTool else c.openFunction, [])
    | .insideToolCall => (c.openFunction, [])
    | .insideFunctionName => (c.nameFunction text, [])
    | .insideFunction => (if m = PARAMETER_NAME_TAG then c.openParameter else c.endFunction, [])
    | .insideParameterName => (c.nameParameter text, [])
    | .insideParameter => (c.closeParameter rj types text, [])
    | .afterFunction => (c.closeTool, [c.invocation rj])

def nameOf (c : Core) : Str := c.currentFunction.name

namespace Impl

/-- The text after the last processed position. -/
def unread (p : Impl) : Str := p.streamContent.drop p.lastProcessedPosition

def Sound (p : Impl) : Prop := p.lastProcessedPosition ≤ p.streamContent.length

variable {p : Impl} {m : Str} {i : Nat} {ds : Delimiters Byte}

theorem passTag_quiet {tag : Str} (h : ∀ m ∈ ds.marks, ∀ i, ¬ At m p.unread i) (htag : tag ∈ ds.marks) (core : Str → Core) :
    p.passTag tag core = p := by
  have hnone : p.find tag = none := find_quiet h htag
  rw [passTag, hnone]

theorem passTag_earliest (h : Earliest ds p.unread m i) (core : Str → Core) :
    p.passTag m core = p.passTo (core (p.unread.take i)) (p.lastProcessedPosition + i + m.length) := by
  have hfound : p.find m = some (p.lastProcessedPosition + i) := find_earliest h
  have htext : p.upTo (p.lastProcessedPosition + i) = p.unread.take i := by
    rw [upTo, Nat.add_sub_cancel_left]
    rfl
  rw [passTag, hfound]
  dsimp only
  rw [htext]

theorem passFirst_quiet {tag tag' : Str} (hmarks : ds.marks = [tag, tag']) (h : ∀ m ∈ ds.marks, ∀ i, ¬ At m p.unread i)
    (core core' : Core) : p.passFirst tag tag' core core' = p := by
  have hnone : p.find tag = none := find_quiet h (hmarks ▸ List.mem_cons_self)
  have hnone' : p.find tag' = none := find_quiet h (hmarks ▸ List.mem_cons_of_mem _ List.mem_cons_self)
  rw [passFirst, hnone, hnone']

theorem passFirst_earliest {tag tag' : Str} (hmarks : ds.marks = [tag, tag']) (hne : tag ≠ tag') (h : Earliest ds p.unread m i)
    (core core' : Core) :
    p.passFirst tag tag' core core' = p.passTo (if m = tag then core else core') (p.lastProcessedPosition + i + m.length) := by
  have hmem : m ∈ [tag, tag'] := hmarks ▸ h.mem
  have hfound : p.find m = some (p.lastProcessedPosition + i) := find_earliest h
  have hother : ∀ m' ∈ ds.marks, m' ≠ m → p.find m' = none ∨ ∃ j, i < j ∧ p.find m' = some (p.lastProcessedPosition + j) :=
    fun m' hm' hne => find_later h hm' hne
  rw [hmarks] at hother
  obtain rfl | hmem := List.mem_cons.mp hmem
  · rw [passFirst, hfound, if_pos rfl]
    obtain hnone | ⟨j, hlt, hsome⟩ := hother tag' (List.mem_cons_of_mem _ List.mem_cons_self) hne.symm
    · rw [hnone]
    · rw [hsome]
      dsimp only
      rw [if_pos (by omega)]
  · obtain rfl := List.mem_singleton.mp hmem
    rw [passFirst, hfound, if_neg hne.symm]
    obtain hnone | ⟨j, hlt, hsome⟩ := hother tag List.mem_cons_self hne
    · rw [hnone]
    · rw [hsome]
      dsimp only
      rw [if_neg (by omega)]

variable (ids : RandomIds)

theorem parseBody_waits (hquiet : (walk rj types).Quiet p.toCore p.unread) (calls : List ToolCall) :
    parseBody rj ids types (p, calls) = .inr (p, calls) := by
  have hnone : ∀ m ∈ (delimiters p.currentState).marks, ∀ i, ¬ At m p.unread i := hquiet
  have hsame : advance rj ids types p calls = (p, calls) := by
    rw [advance]
    cases hstate : p.currentState with
    | content =>
      rw [hstate] at hnone
      exact congrArg (·, calls) (passFirst_quiet rfl hnone _ _)
    | insideToolCall =>
      rw [hstate] at hnone
      exact congrArg (·, calls) (passTag_quiet hnone List.mem_cons_self _)
    | insideFunctionName =>
      rw [hstate] at hnone
      exact congrArg (·, calls) (passTag_quiet hnone List.mem_cons_self _)
    | insideFunction =>
      rw [hstate] at hnone
      exact congrArg (·, calls) (passFirst_quiet rfl hnone _ _)
    | insideParameterName =>
      rw [hstate] at hnone
      exact congrArg (·, calls) (passTag_quiet hnone List.mem_cons_self _)
    | insideParameter =>
      rw [hstate] at hnone
      exact congrArg (·, calls) (passTag_quiet hnone List.mem_cons_self _)
    | afterFunction =>
      rw [hstate] at hnone
      have hend : p.find TOOL_END_TAG = none := find_quiet hnone List.mem_cons_self
      simp only [completeCall, hend]
  rw [parseBody, hsame, if_pos rfl]

/-- The step of the loop through a delimiter. -/
structure Passed (p q : Impl) (core : Core) (read : Nat) : Prop where
  core_eq : q.toCore = core
  content : q.streamContent = p.streamContent
  position : q.lastProcessedPosition = p.lastProcessedPosition + read

theorem passed_silently {calls : List ToolCall} (core : Core)
    (hstep : advance rj ids types p calls = (p.passTo core (p.lastProcessedPosition + i + m.length), calls))
    (hchange : core.currentState ≠ p.currentState) (hfire : (walk rj types).fire p.toCore (p.unread.take i) m = (core, [])) :
    ∃ q new, advance rj ids types p calls = (q, calls ++ new) ∧ q.currentState ≠ p.currentState ∧
      Passed p q ((walk rj types).fire p.toCore (p.unread.take i) m).1 (i + m.length) ∧
      new.map ToolCall.invocation = ((walk rj types).fire p.toCore (p.unread.take i) m).2 := by
  refine ⟨_, [], by rw [hstep, List.append_nil], hchange, ?_, ?_⟩
  · rw [hfire]
    exact ⟨rfl, rfl, Nat.add_assoc ..⟩
  · rw [hfire]
    rfl

theorem advance_passes (hfirst : Earliest (delimiters p.currentState) p.unread m i) (calls : List ToolCall) :
    ∃ q new, advance rj ids types p calls = (q, calls ++ new) ∧ q.currentState ≠ p.currentState ∧
      Passed p q ((walk rj types).fire p.toCore (p.unread.take i) m).1 (i + m.length) ∧
      new.map ToolCall.invocation = ((walk rj types).fire p.toCore (p.unread.take i) m).2 := by
  have hmem := hfirst.mem
  cases hstate : p.currentState with
  | content =>
    rw [hstate] at hfirst
    rw [← hstate]
    refine passed_silently rj types ids (if m = TOOL_START_TAG then p.toCore.openTool else p.toCore.openFunction) ?_ ?_ ?_
    · rw [advance, hstate]
      exact congrArg (·, calls) (passFirst_earliest rfl (by decide) hfirst _ _)
    · rw [hstate]
      split
      · exact fun h => by cases h
      · exact fun h => by cases h
    · simp only [walk, hstate]
  | insideToolCall =>
    rw [hstate] at hmem hfirst
    obtain rfl := List.mem_singleton.mp hmem
    rw [← hstate]
    refine passed_silently rj types ids p.toCore.openFunction ?_ (by rw [hstate]; nofun) ?_
    · rw [advance, hstate]
      exact congrArg (·, calls) (passTag_earliest hfirst _)
    · simp only [walk, hstate]
  | insideFunctionName =>
    rw [hstate] at hmem hfirst
    obtain rfl := List.mem_singleton.mp hmem
    rw [← hstate]
    refine passed_silently rj types ids (p.toCore.nameFunction (p.unread.take i)) ?_ (by rw [hstate]; nofun) ?_
    · rw [advance, hstate]
      exact congrArg (·, calls) (passTag_earliest hfirst _)
    · simp only [walk, hstate]
  | insideFunction =>
    rw [hstate] at hfirst
    rw [← hstate]
    refine passed_silently rj types ids (if m = PARAMETER_NAME_TAG then p.toCore.openParameter else p.toCore.endFunction) ?_ ?_ ?_
    · rw [advance, hstate]
      exact congrArg (·, calls) (passFirst_earliest rfl (by decide) hfirst _ _)
    · rw [hstate]
      split
      · exact fun h => by cases h
      · exact fun h => by cases h
    · simp only [walk, hstate]
  | insideParameterName =>
    rw [hstate] at hmem hfirst
    obtain rfl := List.mem_singleton.mp hmem
    rw [← hstate]
    refine passed_silently rj types ids (p.toCore.nameParameter (p.unread.take i)) ?_ (by rw [hstate]; nofun) ?_
    · rw [advance, hstate]
      exact congrArg (·, calls) (passTag_earliest hfirst _)
    · simp only [walk, hstate]
  | insideParameter =>
    rw [hstate] at hmem hfirst
    obtain rfl := List.mem_singleton.mp hmem
    rw [← hstate]
    refine passed_silently rj types ids (p.toCore.closeParameter rj types (p.unread.take i)) ?_ (by rw [hstate]; nofun) ?_
    · rw [advance, hstate]
      exact congrArg (·, calls) (passTag_earliest hfirst _)
    · simp only [walk, hstate]
  | afterFunction =>
    rw [hstate] at hmem hfirst
    obtain rfl := List.mem_singleton.mp hmem
    have hfound : p.find TOOL_END_TAG = some (p.lastProcessedPosition + i) := find_earliest hfirst
    simp only [advance, hstate, completeCall, hfound, walk]
    exact ⟨_, _, rfl, nofun, ⟨rfl, rfl, Nat.add_assoc ..⟩, rfl⟩

theorem Passed.sound {q : Impl} {core : Core} (h : Passed p q core (i + m.length)) (hp : p.Sound) (hfirst : Earliest ds p.unread m i) :
    q.Sound ∧ q.remaining + i + m.length = p.remaining := by
  have hlength := hfirst.length_le
  have hinside : p.lastProcessedPosition ≤ p.streamContent.length := hp
  rw [unread, List.length_drop] at hlength
  rw [Sound, remaining, remaining, h.content, h.position]
  omega

theorem Passed.unread_eq {q : Impl} {core : Core} {n : Nat} (h : Passed p q core n) : q.unread = p.unread.drop n := by
  rw [unread, unread, h.content, h.position, List.drop_drop]

theorem parseBody_again {calls calls' : List ToolCall} {q : Impl} (h : advance rj ids types p calls = (q, calls'))
    (hstate : q.currentState ≠ p.currentState) : parseBody rj ids types (p, calls) = .inl (q, calls') := by
  rw [parseBody, h, if_neg hstate]

theorem passesDelimiters : PassesDelimiters (parseBody rj ids types) (walk rj types) Impl.toCore unread Sound where
  waits _ hquiet calls := parseBody_waits rj types ids hquiet calls
  passes := by
    intro p m i hp hfirst calls
    obtain ⟨q, new, hstep, hchange, hpassed, hnew⟩ := advance_passes rj types ids hfirst calls
    exact ⟨q, new, fun r hr => .again (parseBody_again rj types ids hstep hchange) hr, (hpassed.sound hp hfirst).1, hpassed.core_eq,
      hpassed.unread_eq, hnew⟩

theorem parseBody_goes {s t : Impl × List ToolCall} (hs : s.1.Sound) (h : parseBody rj ids types s = .inl t) :
    t.1.Sound ∧ t.1.remaining < s.1.remaining := by
  obtain ⟨p, calls⟩ := s
  rcases earliest_or_none (delimiters p.currentState) p.unread with ⟨m, i, hfirst⟩ | hquiet
  · obtain ⟨q, new, hstep, hchange, hpassed, -⟩ := advance_passes rj types ids hfirst calls
    rw [parseBody_again rj types ids hstep hchange] at h
    cases Sum.inl.inj h
    obtain ⟨hsound, hremaining⟩ := hpassed.sound hs hfirst
    have hpos := List.length_pos_iff.mpr ((delimiters p.currentState).nonempty m hfirst.mem)
    exact ⟨hsound, by dsimp only; omega⟩
  · rw [parseBody_waits rj types ids hquiet] at h
    cases h

theorem exits_parseAll (hp : p.Sound) : Loop.Exits (parseBody rj ids types) (p, []) (p.parseAll rj ids types) :=
  Loop.run_exits_keeping (I := fun s => s.1.Sound) (fun s => s.1.remaining) (fun _ _ hs h => parseBody_goes rj types ids hs h) _ hp
    (Nat.lt_succ_self _)

theorem Sound.append (hp : p.Sound) (chunk : Str) : (p.append chunk).Sound ∧ (p.append chunk).unread = p.unread ++ chunk := by
  have hinside : p.lastProcessedPosition ≤ p.streamContent.length := hp
  refine ⟨?_, List.drop_append_of_le_length hinside⟩
  show p.lastProcessedPosition ≤ (p.streamContent ++ chunk).length
  rw [List.length_append]
  omega

/-- The inner parser goes from tag to tag, whatever the chunks. -/
def follows : (streamParser rj ids types).Follows (walk rj types) nameOf where
  core p := p.toCore
  unread := unread
  Sound := Sound
  reads := by
    intro p chunk rest t out hp hchunk hreads
    obtain ⟨happended, hunread⟩ := hp.append chunk
    have hreads' : (walk rj types).Reads (p.append chunk).toCore (p.append chunk).unread t rest out := by
      rw [hunread]
      exact hreads
    have hparsed := (passesDelimiters rj types ids).reads (exits_parseAll rj types ids happended) happended hreads'
    have hnonempty : chunk.isEmpty = false := by simpa using hchunk
    show Option.map _ (parseChunk rj ids types p chunk).1 = _ ∧ Sound (parseChunk rj ids types p chunk).2 ∧
      (parseChunk rj ids types p chunk).2.toCore = t ∧ unread (parseChunk rj ids types p chunk).2 = rest
    rw [parseChunk, hnonempty, if_neg Bool.false_ne_true]
    exact hparsed
  named := by
    intro p
    show getCurrentFunctionName p = _
    rw [getCurrentFunctionName, nameOf]
    simp only [List.isEmpty_iff]
  draws := fun hp => ⟨hp, rfl, rfl⟩

end Impl

end Walk

section Written

/-- The tags of a call. -/
def tags : MarkupTags where
  parameterStart := PARAMETER_NAME_TAG
  nameEnd := NAME_ATTR_END_TAG
  parameterEnd := PARAMETER_END_TAG
  functionEnd := FUNCTION_END_TAG

/-- `<atem:function_calls><atem:invoke name="N">(<atem:parameter name="K">V</atem:parameter>)*</atem:invoke></atem:function_calls>`
after a text without a call. -/
structure WrittenCall where
  gap : Str := []
  inner : Str := []
  name : Str
  parameters : List (WrittenParameter tags) := []
  closing : Str := []
  after : Str := []
  gap_quiet : ¬ TOOL_START_TAG <:+: gap ∧ ¬ FUNCTION_NAME_TAG <:+: gap
  inner_quiet : ¬ FUNCTION_NAME_TAG <:+: inner
  name_quiet : ¬ NAME_ATTR_END_TAG <:+: name
  closing_quiet : ¬ PARAMETER_NAME_TAG <:+: closing ∧ ¬ FUNCTION_END_TAG <:+: closing
  after_quiet : ¬ TOOL_END_TAG <:+: after

namespace WrittenCall

variable (rj : RapidJson) (types : ToolsParameterTypeMap) (call : WrittenCall)

def legs : List (Str × Str) :=
  (call.gap, TOOL_START_TAG) :: (call.inner, FUNCTION_NAME_TAG) :: (call.name, NAME_ATTR_END_TAG) ::
    (call.parameters.flatMap WrittenParameter.legs ++ [(call.closing, FUNCTION_END_TAG), (call.after, TOOL_END_TAG)])

/-- The function that is built of the parameters, one after the other. -/
def functool : MarkupFunctool :=
  MarkupFunctool.addParameters (addParameterToCurrentFunctionDoc rj types) { name := call.name } call.parameters

def invocation : Str × Str := (call.name, (call.functool rj types).argumentsAsString rj)

end WrittenCall

end Written

section Walk

variable (rj : RapidJson) (types : ToolsParameterTypeMap)

theorem clean_delimiters (s : State) : ∀ m ∈ (delimiters s).marks, ∀ b ∈ (delimiters s).marks, Clean m b := by
  cases s <;> decide +kernel

theorem walks_leg {c d t : Core} {s : State} {gap m : Str} {legs : List (Str × Str)} {o out : List (Str × Str)}
    (hs : c.currentState = s) (hm : m ∈ (delimiters s).marks) (hquiet : ∀ b ∈ (delimiters s).marks, ¬ b <:+: gap)
    (hfire : (walk rj types).fire c gap m = (d, o)) (h : (walk rj types).Walks d legs t out) :
    (walk rj types).Walks c ((gap, m) :: legs) t (o ++ out) := by
  subst hs
  exact .leg hm (clean_delimiters _ m hm) hquiet hfire h

theorem addParameter_name (f : MarkupFunctool) (key value : Str) :
    (addParameterToCurrentFunctionDoc rj types f key value).name = f.name := f.addMemberOnce_name _ _

/-- Inside of a function, between two parameters. -/
structure Inside (c : Core) (f : MarkupFunctool) : Prop where
  state : c.currentState = .insideFunction
  function : c.currentFunction = f

theorem walks_parameter {c : Core} {f : MarkupFunctool} (hc : Inside c f) (parameter : WrittenParameter tags) :
    ∃ d, Inside d (addParameterToCurrentFunctionDoc rj types f parameter.key parameter.value) ∧
      (walk rj types).Walks c parameter.legs d [] := by
  have hstart : (walk rj types).fire c parameter.gap PARAMETER_NAME_TAG = (c.openParameter, []) := by
    simp only [walk, hc.state, if_pos]
  refine ⟨(c.openParameter.nameParameter parameter.key).closeParameter rj types parameter.value, ⟨rfl, ?_⟩,
    walks_leg rj types hc.state List.mem_cons_self ?_ hstart (walks_leg rj types rfl List.mem_cons_self ?_ rfl
      (walks_leg rj types rfl List.mem_cons_self ?_ rfl (.stays _)))⟩
  · show addParameterToCurrentFunctionDoc rj types c.currentFunction parameter.key parameter.value = _
    rw [hc.function]
  · exact List.forall_mem_cons.mpr ⟨parameter.gap_quiet.1, List.forall_mem_singleton.mpr parameter.gap_quiet.2⟩
  · exact List.forall_mem_singleton.mpr parameter.key_quiet
  · exact List.forall_mem_singleton.mpr parameter.value_quiet

/-- Outside of calls. -/
structure Idle (c : Core) : Prop where
  state : c.currentState = .content
  function : c.currentFunction = {}

theorem functool_name (call : WrittenCall) : (call.functool rj types).name = call.name :=
  MarkupFunctool.addParameters_name (addParameter_name rj types) _ _

theorem walks_call {c : Core} (hc : Idle c) (call : WrittenCall) :
    ∃ d, Idle d ∧ (walk rj types).Walks c call.legs d [call.invocation rj types] := by
  have hopen : (walk rj types).fire c call.gap TOOL_START_TAG = (c.openTool, []) := by simp only [walk, hc.state, if_pos]
  have hnamed : Inside (c.openTool.openFunction.nameFunction call.name) { name := call.name } := by
    refine ⟨rfl, ?_⟩
    show { c.currentFunction with name := call.name } = _
    rw [hc.function]
  obtain ⟨d, hd, hparameters⟩ := walks_parameters (walks_parameter rj types) hnamed call.parameters
  have hend : (walk rj types).fire d call.closing FUNCTION_END_TAG = (d.endFunction, []) := by
    simp only [walk, hd.state]
    rw [if_neg (by decide)]
  have hclose : (walk rj types).fire d.endFunction call.after TOOL_END_TAG = (d.endFunction.closeTool, [call.invocation rj types]) := by
    have hfunction : d.currentFunction = call.functool rj types := hd.function
    have hinvocation : d.endFunction.invocation rj = call.invocation rj types := by
      show (d.currentFunction.name, d.currentFunction.argumentsAsString rj) = _
      rw [hfunction, functool_name]
      rfl
    rw [← hinvocation]
    rfl
  refine ⟨d.endFunction.closeTool, ⟨rfl, rfl⟩, walks_leg rj types hc.state List.mem_cons_self ?_ hopen
    (walks_leg rj types rfl List.mem_cons_self ?_ rfl (walks_leg rj types rfl List.mem_cons_self ?_ rfl (hparameters.append
      (walks_leg rj types hd.state (List.mem_cons_of_mem _ List.mem_cons_self) ?_ hend
        (walks_leg rj types rfl List.mem_cons_self ?_ hclose (.stays _))))))⟩
  · exact List.forall_mem_cons.mpr ⟨call.gap_quiet.1, List.forall_mem_singleton.mpr call.gap_quiet.2⟩
  · exact List.forall_mem_singleton.mpr call.inner_quiet
  · exact List.forall_mem_singleton.mpr call.name_quiet
  · exact List.forall_mem_cons.mpr ⟨call.closing_quiet.1, List.forall_mem_singleton.mpr call.closing_quiet.2⟩
  · exact List.forall_mem_singleton.mpr call.after_quiet

/-- Where the name of the open function is known, up to the end of its block. -/
structure Named (name : Str) (c : Core) : Prop where
  state : c.currentState = .insideFunction ∨ c.currentState = .insideParameterName ∨ c.currentState = .insideParameter ∨
    c.currentState = .afterFunction
  name_eq : c.currentFunction.name = name

theorem Named.fire {name : Str} {c : Core} (hc : Named name c) {m : Str} (hm : m ≠ TOOL_END_TAG)
    (hmem : m ∈ (delimiters c.currentState).marks) (gap : Str) :
    Named name ((walk rj types).fire c gap m).1 ∧ ((walk rj types).fire c gap m).2 = [] := by
  obtain ⟨hstate | hstate | hstate | hstate, hname⟩ := hc
  · simp only [walk, hstate]
    split
    · exact ⟨⟨.inr (.inl rfl), hname⟩, trivial⟩
    · exact ⟨⟨.inr (.inr (.inr rfl)), hname⟩, trivial⟩
  · simp only [walk, hstate]
    exact ⟨⟨.inr (.inr (.inl rfl)), hname⟩, trivial⟩
  · simp only [walk, hstate]
    exact ⟨⟨.inl rfl, (addParameter_name rj types _ _ _).trans hname⟩, trivial⟩
  · rw [hstate] at hmem
    exact absurd (List.mem_singleton.mp hmem) hm

/-- All legs of a call but the last one. -/
theorem Named.within {name closing : Str} {c u : Core} {parameters : List (WrittenParameter tags)} {part : List (Str × Str)}
    {out : List (Str × Str)} (hc : Named name c)
    (hpart : part <+: parameters.flatMap WrittenParameter.legs ++ [(closing, FUNCTION_END_TAG)])
    (h : (walk rj types).Walks c part u out) : Named name u ∧ out = [] := by
  refine h.keeps (fun s gap m hs hmem hmark => hs.fire rj types ?_ hmark gap) hc
  obtain hmem | hmem := List.mem_append.mp (hpart.subset hmem)
  · rcases WrittenParameter.mark_of_mem hmem with rfl | rfl | rfl
    · decide
    · decide
    · decide
  · cases List.mem_singleton.mp hmem
    decide

theorem within_call {c u : Core} {call : WrittenCall} {part missing : List (Str × Str)} {out : List (Str × Str)} (hc : Idle c)
    (hpart : call.legs = part ++ missing) (hne : missing ≠ []) (hwalk : (walk rj types).Walks c part u out) :
    out = [] ∧ nameOf u = if 3 ≤ part.length then (call.invocation rj types).1 else [] := by
  have hopen : (walk rj types).fire c call.gap TOOL_START_TAG = (c.openTool, []) := by simp only [walk, hc.state, if_pos]
  have hfunction : (walk rj types).fire c.openTool call.inner FUNCTION_NAME_TAG = (c.openTool.openFunction, []) := rfl
  have hname : (walk rj types).fire c.openTool.openFunction call.name NAME_ATTR_END_TAG =
    (c.openTool.openFunction.nameFunction call.name, []) := rfl
  have hnothing : c.currentFunction.name = [] := by rw [hc.function]
  match part with
  | [] =>
    cases hwalk
    exact ⟨rfl, hnothing⟩
  | [leg] =>
    obtain ⟨rfl, -⟩ := List.cons.inj hpart
    obtain ⟨later, rfl, hrest⟩ := hwalk.after hopen
    cases hrest
    exact ⟨rfl, hnothing⟩
  | [leg, leg'] =>
    rw [WrittenCall.legs, List.cons_append, List.cons_append, List.cons.injEq, List.cons.injEq] at hpart
    obtain ⟨rfl, rfl, -⟩ := hpart
    obtain ⟨later, rfl, hrest⟩ := hwalk.after hopen
    obtain ⟨later, rfl, hrest⟩ := hrest.after hfunction
    cases hrest
    exact ⟨rfl, hnothing⟩
  | leg :: leg' :: leg'' :: part =>
    rw [WrittenCall.legs, List.cons_append, List.cons_append, List.cons_append, List.cons.injEq, List.cons.injEq,
      List.cons.injEq] at hpart
    obtain ⟨rfl, rfl, rfl, hpart⟩ := hpart
    obtain ⟨later, rfl, hrest⟩ := hwalk.after hopen
    obtain ⟨later, rfl, hrest⟩ := hrest.after hfunction
    obtain ⟨later, rfl, hrest⟩ := hrest.after hname
    have hnamed : Named call.name (c.openTool.openFunction.nameFunction call.name) := ⟨.inl rfl, rfl⟩
    rw [List.append_cons] at hpart
    obtain ⟨hu, rfl⟩ := hnamed.within rj types (prefix_of_lacking hpart hne) hrest
    exact ⟨rfl, hu.name_eq⟩

def callLegs : CallLegs (walk rj types) nameOf WrittenCall where
  legs := WrittenCall.legs
  opening := 3
  invocation := WrittenCall.invocation rj types
  Idle := Idle
  unnamed := by
    intro c hc
    rw [nameOf, hc.function]
  nonempty := by
    intro call h
    have hlength := congrArg List.length h
    rw [WrittenCall.legs, legsText_cons, List.length_append, List.length_append] at hlength
    have hpos : 0 < TOOL_START_TAG.length := by decide
    have hzero : call.gap.length + (TOOL_START_TAG.length + _) = 0 := hlength
    omega
  opening_le := fun call => by
    rw [WrittenCall.legs, List.length_cons, List.length_cons, List.length_cons]
    omega
  walks := fun hc call => walks_call rj types hc call
  within := fun hc hpart hne hwalk => within_call rj types hc hpart hne hwalk

end Walk

/-- Calls one after the other, and a text without a call after them. -/
structure WrittenText where
  calls : List WrittenCall
  tail : Str := []
  some_call : calls ≠ []
  tail_quiet : ¬ TOOL_START_TAG <:+: tail ∧ ¬ FUNCTION_NAME_TAG <:+: tail

namespace WrittenText

variable (rj : RapidJson) (ids : RandomIds) (toolSchemas : ToolsSchemas) (written : WrittenText)

def text : Str := legsText (written.calls.flatMap WrittenCall.legs) ++ written.tail

theorem quiet_tail {c : Core} (hc : Idle c) (types : ToolsParameterTypeMap) : (walk rj types).Quiet c written.tail := by
  intro m hm i hat
  have hmem : m ∈ (delimiters c.currentState).marks := hm
  rw [hc.state] at hmem
  obtain rfl | hmem := List.mem_cons.mp hmem
  · exact written.tail_quiet.1 (infix_iff_at.mpr ⟨i, hat⟩)
  · rw [List.mem_singleton.mp hmem] at hat
    exact written.tail_quiet.2 (infix_iff_at.mpr ⟨i, hat⟩)

/-- Where the calls begin and are named. -/
noncomputable def timeline : CallTimeline :=
  ((callLegs rj (createToolsParametersTypesMap toolSchemas)).spoken (s := {}) ⟨rfl, rfl⟩ written.calls written.tail
    fun hc => written.quiet_tail rj hc _).timeline

/-- The calls that the inner parser makes of the whole text. -/
def wholeCalls : List (Str × Str) :=
  ((Impl.parseChunk rj ids (createToolsParametersTypesMap toolSchemas) {} written.text).1.getD []).map ToolCall.invocation

theorem wholeCalls_names : (written.wholeCalls rj ids toolSchemas).map Prod.fst = written.calls.map WrittenCall.name := by
  have hcalls : written.wholeCalls rj ids toolSchemas = written.calls.map (WrittenCall.invocation rj _) :=
    ((callLegs rj _).reassembles (Impl.follows rj _ ids) false "" (p := {}) (Nat.le_refl 0) ⟨rfl, rfl⟩ rfl written.some_call
      fun hc => written.quiet_tail rj hc _).1
  rw [hcalls, List.map_map]
  rfl

theorem generation_reassembles {chunks : List Str} (htext : chunks.flatten = written.text) (hchunks : ∀ chunk ∈ chunks, chunk ≠ [])
    (hone : (written.timeline rj toolSchemas).OneAtATime chunks) :
    ∃ deltas, generation rj ids toolSchemas chunks = .ok deltas ∧
      (SentDeltas.Reassembles (written.wholeCalls rj ids toolSchemas) (toolCallDeltas deltas) ↔
        ∀ i < written.calls.length, (written.timeline rj toolSchemas).NamedBefore chunks i) := by
  obtain ⟨hcalls, hall⟩ := (callLegs rj _).reassembles (Impl.follows rj _ ids) false
    "For streaming we expected one tool call" (p := {}) (Nat.le_refl 0) ⟨rfl, rfl⟩ rfl written.some_call
    fun hc => written.quiet_tail rj hc _
  obtain ⟨deltas, hdeltas, hiff⟩ := hall chunks htext hchunks hone
  refine ⟨deltas, hdeltas, ?_⟩
  have hwhole : written.wholeCalls rj ids toolSchemas = _ := hcalls
  rw [hwhole, hiff]
  refine forall_congr' fun i => forall_congr' fun _ => or_iff_right fun h => ?_
  exact Bool.false_ne_true h.1

end WrittenText

end ModelServer.OnyxToolParser
